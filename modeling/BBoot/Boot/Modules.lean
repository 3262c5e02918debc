import BBoot.Boot.Regions

/-!
# The module list

`ModuleAt m n r` says that the `module_t` at `n` holds what `add_module` stores
for the record `r`, with the name behind it. Its first 8 bytes are the list
node, which changes when the next module is added.

Results:
* `addModule_spec`: `add_module` on a list and a node apart from it.
* `setExecId_spec`: the `id` of the `EXEC` module.
* `buildAlist_traversed`: reading a list from both ends.
-/

namespace BBoot.Boot

/-- What a `module_t` says of its module. -/
structure Module where
  name : CStr
  id : BitVec 16
  address : Word
  size : Word
deriving DecidableEq

/-- The `module_t` at `n` (`boot_aos.c` lines 17–27) with the name behind it. -/
structure ModuleAt (m : Mem) (n : Word) (r : Module) : Prop where
  string : CStrAt m (n + 36) r.name
  name : load32 m (n + 8) = n + 36
  options : load32 m (n + 12) = 0
  id : load16 m (n + 16) = r.id
  flags : load16 m (n + 18) = 3
  alloc : load32 m (n + 20) = n + 20
  dealloc : load32 m (n + 24) = n + 24
  address : load32 m (n + 28) = r.address
  size : load32 m (n + 32) = r.size

/-- A `module_t` with a name of `nlen` bytes. -/
def nodeSpan (n : Word) (nlen : ℕ) : Span := ⟨n.toNat, 37 + nlen⟩

/-- The part of it behind the list node. -/
def payloadSpan (n : Word) (nlen : ℕ) : Span := ⟨n.toNat + 8, 29 + nlen⟩

/-- What `add_module` stores behind the list node. -/
def moduleFields (mod data len : Word) (name : List Byte) : List (Word × List Byte) :=
  [(mod + 36, name ++ [0]), (mod + 8, be32Bytes (mod + 36)), (mod + 12, be32Bytes 0),
    (mod + 16, be16Bytes 2), (mod + 18, be16Bytes 3), (mod + 20, be32Bytes (mod + 20)),
    (mod + 24, be32Bytes (mod + 24)), (mod + 28, be32Bytes data), (mod + 32, be32Bytes len)]

section

variable {m m' : Mem} {mod data len name l : Word} {s : CStr} {ns : List Word} {r : Module}

/-- Offsets inside a `module_t` do not wrap. -/
theorem toNat_field (k : Word) {nlen : ℕ} (h : mod.toNat + (37 + nlen) ≤ 2 ^ 32)
    (hk : k.toNat ≤ 36 + nlen) : (mod + k).toNat = mod.toNat + k.toNat := by
  rw [BitVec.toNat_add, Nat.mod_eq_of_lt (by omega)]

theorem fillModule_run (hname : CStrAt m name s) :
    fillModule mod data len name m =
      ⟨some (), writeAll m (moduleFields mod data len s.bytes),
        (moduleFields mod data len s.bytes).map fun w => ⟨w.1, w.2.length⟩⟩ := by
  have hs : string name m = ⟨some s, m, []⟩ := by
    rw [string, Traced.look_run, cstrAt?_eq hname]
  unfold fillModule
  rw [Traced.bind_run_some hs]
  rfl

/-- The ranges of the fields. -/
theorem moduleFields_spans (data len : Word) (h : mod.toNat + (37 + s.bytes.length) ≤ 2 ^ 32) :
    (moduleFields mod data len s.bytes).map writeSpan =
      [⟨mod.toNat + 36, s.bytes.length + 1⟩, ⟨mod.toNat + 8, 4⟩, ⟨mod.toNat + 12, 4⟩,
        ⟨mod.toNat + 16, 2⟩, ⟨mod.toNat + 18, 2⟩, ⟨mod.toNat + 20, 4⟩, ⟨mod.toNat + 24, 4⟩,
        ⟨mod.toNat + 28, 4⟩, ⟨mod.toNat + 32, 4⟩] := by
  have e36 : (mod + 36).toNat = mod.toNat + 36 := toNat_field 36 h (Nat.le_add_right _ _)
  have e8 : (mod + 8).toNat = mod.toNat + 8 := toNat_field 8 h (by simp; omega)
  have e12 : (mod + 12).toNat = mod.toNat + 12 := toNat_field 12 h (by simp; omega)
  have e16 : (mod + 16).toNat = mod.toNat + 16 := toNat_field 16 h (by simp; omega)
  have e18 : (mod + 18).toNat = mod.toNat + 18 := toNat_field 18 h (by simp; omega)
  have e20 : (mod + 20).toNat = mod.toNat + 20 := toNat_field 20 h (by simp; omega)
  have e24 : (mod + 24).toNat = mod.toNat + 24 := toNat_field 24 h (by simp; omega)
  have e28 : (mod + 28).toNat = mod.toNat + 28 := toNat_field 28 h (by simp; omega)
  have e32 : (mod + 32).toNat = mod.toNat + 32 := toNat_field 32 h (by simp; omega)
  simp only [moduleFields, List.map_cons, List.map_nil, writeSpan, e36, e8, e12, e16, e18, e20,
    e24, e28, e32, List.length_append, List.length_cons, List.length_nil, be32Bytes_length,
    be16Bytes_length]

theorem moduleFields_fit (data len : Word) (h : mod.toNat + (37 + s.bytes.length) ≤ 2 ^ 32) :
    ∀ w ∈ moduleFields mod data len s.bytes,
      (writeSpan w).stop ≤ 2 ^ 32 ∧ (writeSpan w).Inside (payloadSpan mod s.bytes.length) := by
  intro w hw
  have hmem := List.mem_map_of_mem (f := writeSpan) hw
  rw [moduleFields_spans data len h] at hmem
  generalize writeSpan w = r at hmem
  simp only [List.mem_cons, List.not_mem_nil, or_false] at hmem
  unfold Span.Inside Span.stop payloadSpan
  dsimp only
  rcases hmem with rfl | rfl | rfl | rfl | rfl | rfl | rfl | rfl | rfl <;> dsimp only <;> omega

theorem moduleFields_apart (data len : Word) (h : mod.toNat + (37 + s.bytes.length) ≤ 2 ^ 32) :
    (moduleFields mod data len s.bytes).Pairwise fun w w' =>
      (writeSpan w).Disjoint (writeSpan w') := by
  rw [← List.pairwise_map, moduleFields_spans data len h]
  simp only [List.pairwise_cons, List.mem_cons, List.not_mem_nil, or_false, forall_eq_or_imp,
    forall_eq, Span.Disjoint, Span.stop, List.Pairwise.nil, false_imp_iff, implies_true, and_true]
  omega

/-- The fields and the name are there once they are all stored. -/
theorem moduleAt_writeAll (m : Mem) (data len : Word)
    (h : mod.toNat + (37 + s.bytes.length) ≤ 2 ^ 32) :
    ModuleAt (writeAll m (moduleFields mod data len s.bytes)) mod ⟨s, 2, data, len⟩ := by
  have hat := bytesAt_writeAll (fun w hw => (moduleFields_fit data len h w hw).1)
    (moduleFields_apart data len h) m
  simp only [moduleFields, List.mem_cons, List.not_mem_nil, or_false, forall_eq_or_imp,
    forall_eq] at hat
  obtain ⟨h36, h8, h12, h16, h18, h20, h24, h28, h32⟩ := hat
  exact ⟨h36, load32_of_bytesAt h8, load32_of_bytesAt h12, load16_of_bytesAt h16,
    load16_of_bytesAt h18, load32_of_bytesAt h20, load32_of_bytesAt h24, load32_of_bytesAt h28,
    load32_of_bytesAt h32⟩

/-- The record depends on the bytes behind the list node only. -/
theorem ModuleAt.of_sameOn (hm : ModuleAt m mod r) (h : mod.toNat + (37 + r.name.bytes.length) ≤ 2 ^ 32)
    (hsame : SameOn m m' (payloadSpan mod r.name.bytes.length)) : ModuleAt m' mod r := by
  have hload (k : Word) (hk8 : 8 ≤ k.toNat) (hk : k.toNat ≤ 32) :
      load32 m' (mod + k) = load32 m (mod + k) := by
    have ek := toNat_field k h (by omega)
    refine load32_sameOn (hsame.mono ?_) (by omega)
    unfold Span.Inside Span.stop payloadSpan
    dsimp only
    omega
  have hhalf (k : Word) (hk8 : 8 ≤ k.toNat) (hk : k.toNat ≤ 32) :
      load16 m' (mod + k) = load16 m (mod + k) := by
    have ek := toNat_field k h (by omega)
    refine load16_sameOn (hsame.mono ?_) (by omega)
    unfold Span.Inside Span.stop payloadSpan
    dsimp only
    omega
  have e36 : (mod + 36).toNat = mod.toNat + 36 := toNat_field 36 h (Nat.le_add_right _ _)
  have hstring : CStrAt m' (mod + 36) r.name := by
    refine hm.string.of_sameOn ?_ hsame ?_
    · unfold Span.Inside Span.stop payloadSpan
      dsimp only
      omega
    · unfold Span.stop payloadSpan
      dsimp only
      omega
  exact ⟨hstring, (hload 8 (by decide) (by decide)).trans hm.name,
    (hload 12 (by decide) (by decide)).trans hm.options,
    (hhalf 16 (by decide) (by decide)).trans hm.id,
    (hhalf 18 (by decide) (by decide)).trans hm.flags,
    (hload 20 (by decide) (by decide)).trans hm.alloc,
    (hload 24 (by decide) (by decide)).trans hm.dealloc,
    (hload 28 (by decide) (by decide)).trans hm.address,
    (hload 32 (by decide) (by decide)).trans hm.size⟩

/-! ## The operations -/

/-- The list node is a cell of its own in front of the fields. -/
theorem nodeSpan_disjoint_payload (n : Word) (nlen : ℕ) :
    (Span.mk n.toNat 8).Disjoint (payloadSpan n nlen) :=
  Or.inr (Or.inr (Or.inl le_rfl))

/-- What `add_module` does to a list and a node apart from it: the list gets
    the node, the node its fields, and nothing else changes. -/
structure Added (m m' : Mem) (l : Word) (ns : List Word) (mod : Word) (r : Module) : Prop where
  list : AosList m' l (ns ++ [mod])
  record : ModuleAt m' mod r
  frame : SameOutside m m' (nodeSpan mod r.name.bytes.length :: cells l ns)

/-- The last node of a list is one of its cells. -/
theorem writes_addTail (hc : CellsApart l (ns ++ [mod])) {t : Word} (ht : t ∈ l :: ns) :
    ∀ w ∈ [(⟨mod, 4⟩ : Access), ⟨mod + 4, 4⟩, ⟨t, 4⟩, ⟨l + 8, 4⟩],
      w.InsideOne (cells l (ns ++ [mod])) := by
  have hl := hc.head
  have hmod := hc.node (n := mod) (List.mem_append_right _ List.mem_cons_self)
  have hmodcell : (⟨mod.toNat, 8⟩ : Span) ∈ cells l (ns ++ [mod]) :=
    List.mem_cons_of_mem _ (List.mem_map_of_mem (List.mem_append_right _ List.mem_cons_self))
  have hlcell : (⟨l.toNat, 12⟩ : Span) ∈ cells l (ns ++ [mod]) := List.mem_cons_self
  intro w hw
  simp only [List.mem_cons, List.not_mem_nil, or_false] at hw
  unfold Access.InsideOne Access.span Span.Inside Span.stop
  rcases hw with rfl | rfl | rfl | rfl
  · exact ⟨by dsimp only; omega, _, hmodcell, by dsimp only; omega⟩
  · exact ⟨by dsimp only; bv_omega, _, hmodcell, by dsimp only; bv_omega⟩
  · rcases List.mem_cons.mp ht with rfl | ht
    · exact ⟨by dsimp only; omega, _, hlcell, by dsimp only; omega⟩
    · have ht8 := hc.node (List.mem_append_left [mod] ht)
      refine ⟨by dsimp only; omega, ⟨t.toNat, 8⟩, ?_, by dsimp only; omega⟩
      exact List.mem_cons_of_mem _ (List.mem_map_of_mem (List.mem_append_left _ ht))
  · exact ⟨by dsimp only; bv_omega, _, hlcell, by dsimp only; bv_omega⟩

theorem honest_alistAddTail (l n : Word) : MemM.Honest (alistAddTail l n) :=
  MemM.honest_bind (MemM.honest_write _ _) fun _ => MemM.honest_bind (MemM.honest_look _) fun _ =>
    MemM.honest_bind (MemM.honest_write _ _) fun _ => MemM.honest_bind (MemM.honest_look _) fun _ =>
      MemM.honest_bind (MemM.honest_write _ _) fun _ => MemM.honest_write _ _

/-- A node apart from the cells of a list can be added to it. -/
theorem CellsApart.append (hc : CellsApart l ns) (hmod : mod.toNat + 8 ≤ 2 ^ 32)
    (hsep : ∀ c ∈ cells l ns, c.Disjoint ⟨mod.toNat, 8⟩) : CellsApart l (ns ++ [mod]) := by
  refine ⟨?_, ?_⟩
  · rw [cells_append]
    refine List.pairwise_append.mpr ⟨hc.apart, List.pairwise_singleton .., ?_⟩
    intro c hcell d hd
    obtain rfl := List.mem_singleton.mp hd
    exact hsep c hcell
  · intro c hcell
    rcases mem_cells_append.mp hcell with hcell | rfl
    · exact hc.fits c hcell
    · exact hmod

/-- The cells with the new node lie in the old ones and the new `module_t`. -/
theorem cells_inside (l : Word) (ns : List Word) (mod : Word) (nlen : ℕ) :
    ∀ c ∈ cells l (ns ++ [mod]), ∃ r ∈ nodeSpan mod nlen :: cells l ns, c.Inside r := by
  intro c hc
  rcases mem_cells_append.mp hc with hc | rfl
  · exact ⟨c, List.mem_cons_of_mem _ hc, le_rfl, le_rfl⟩
  · refine ⟨_, List.mem_cons_self, le_rfl, ?_⟩
    show mod.toNat + 8 ≤ mod.toNat + (37 + nlen)
    omega

theorem addModule_spec (hlist : AosList m l ns) (hc : CellsApart l ns) (hname : CStrAt m name s)
    (hfit : mod.toNat + (37 + s.bytes.length) ≤ 2 ^ 32)
    (hsep : ∀ c ∈ cells l ns, c.Disjoint (nodeSpan mod s.bytes.length)) (data len : Word) :
    ∃ m' log, addModule l mod data len name m = ⟨some (), m', log⟩ ∧
      Added m m' l ns mod ⟨s, 2, data, len⟩ ∧
      ∀ w ∈ log, w.InsideOne (nodeSpan mod s.bytes.length :: cells l ns) := by
  have hnode : (Span.mk mod.toNat 8).Inside (nodeSpan mod s.bytes.length) := by
    refine ⟨le_rfl, ?_⟩
    show mod.toNat + 8 ≤ mod.toNat + (37 + s.bytes.length)
    omega
  have hpayload : (payloadSpan mod s.bytes.length).Inside (nodeSpan mod s.bytes.length) := by
    unfold Span.Inside Span.stop payloadSpan nodeSpan
    dsimp only
    omega
  have hc' : CellsApart l (ns ++ [mod]) :=
    hc.append (by omega) fun c hcell => (hsep c hcell).mono ⟨le_rfl, le_rfl⟩ hnode
  -- the fields do not touch the list
  have hfields := fun w (hw : w ∈ moduleFields mod data len s.bytes) =>
    moduleFields_fit data len hfit w hw
  obtain ⟨m₁, hm₁⟩ : ∃ m₁, m₁ = writeAll m (moduleFields mod data len s.bytes) := ⟨_, rfl⟩
  have hsame₁ : SameOutside m m₁ [payloadSpan mod s.bytes.length] := by
    rw [hm₁]
    refine (sameOutside_writeAll (fun w hw => (hfields w hw).1) m).mono ?_
    intro r hr
    obtain ⟨w, hw, rfl⟩ := List.mem_map.mp hr
    exact ⟨_, List.mem_singleton_self _, (hfields w hw).2⟩
  have hlist₁ : AosList m₁ l ns := by
    refine hlist.of_sameOn hc fun c hcell => hsame₁.sameOn ?_
    intro r hr
    obtain rfl := List.mem_singleton.mp hr
    exact (hsep c hcell).mono ⟨le_rfl, le_rfl⟩ hpayload
  have hat₁ : ModuleAt m₁ mod ⟨s, 2, data, len⟩ := hm₁ ▸ moduleAt_writeAll m data len hfit
  -- the node does not touch the fields
  obtain ⟨pre, t, ht⟩ : ∃ pre t, l :: ns = pre ++ [t] :=
    ⟨_, _, (List.dropLast_append_getLast (List.cons_ne_nil l ns)).symm⟩
  have hrun₂ := alistAddTail_run hlist₁ hc' ht
  have hwrites := writes_addTail hc' (t := t) (by simp [ht])
  have hlist₂ := alistAddTail_aosList hlist₁ hc'
  have hsame₂ := honest_alistAddTail l mod m₁
  rw [hrun₂] at hlist₂ hsame₂
  have hsame₂ := hsame₂.sameOutside hwrites
  have hpay : ∀ c ∈ cells l (ns ++ [mod]), (payloadSpan mod s.bytes.length).Disjoint c := by
    intro c hcell
    rcases mem_cells_append.mp hcell with hcell | rfl
    · exact ((hsep c hcell).mono ⟨le_rfl, le_rfl⟩ hpayload).symm
    · exact (nodeSpan_disjoint_payload mod _).symm
  have hrun : addModule l mod data len name m = ⟨some (), addTailMem m₁ l mod t,
      ((moduleFields mod data len s.bytes).map fun w => ⟨w.1, w.2.length⟩) ++
        [⟨mod, 4⟩, ⟨mod + 4, 4⟩, ⟨t, 4⟩, ⟨l + 8, 4⟩]⟩ := by
    rw [addModule, Traced.bind_run_some (fillModule_run hname), ← hm₁, hrun₂]
  refine ⟨_, _, hrun, ⟨hlist₂, ?_, ?_⟩, ?_⟩
  · exact hat₁.of_sameOn hfit (hsame₂.sameOn hpay)
  · refine (hsame₁.mono ?_).trans (hsame₂.mono (cells_inside l ns mod s.bytes.length))
    intro r hr
    obtain rfl := List.mem_singleton.mp hr
    exact ⟨_, List.mem_cons_self, hpayload⟩
  · intro w hw
    rcases List.mem_append.mp hw with hw | hw
    · obtain ⟨f, hf, rfl⟩ := List.mem_map.mp hw
      have hin := (hfields f hf).2
      exact ⟨(hfields f hf).1, _, List.mem_cons_self, hpayload.1.trans hin.1, hin.2.trans hpayload.2⟩
    · exact (hwrites w hw).mono (cells_inside l ns mod s.bytes.length)

/-- `EXEC` has the `id` 1, a module the `id` 2. -/
def execId (data : Word) : BitVec 16 := if data = 0 then 2 else 1

/-- Another `id` is stored. -/
theorem ModuleAt.setId (h : ModuleAt m mod r) (hfit : mod.toNat + (37 + r.name.bytes.length) ≤ 2 ^ 32)
    (id : BitVec 16) : ModuleAt (store16 m (mod + 16) id) mod { r with id := id } := by
  have e16 : (mod + 16).toNat = mod.toNat + 16 := toNat_field 16 hfit (by simp; omega)
  have hsame : SameOutside m (store16 m (mod + 16) id) [⟨mod.toNat + 16, 2⟩] := by
    have h := sameOutside_writeBytes m (mod + 16) (be16Bytes id) (by simp; omega)
    rwa [e16, be16Bytes_length] at h
  have hclear {o : Span} (ho : o.Disjoint ⟨mod.toNat + 16, 2⟩) :
      SameOn m (store16 m (mod + 16) id) o := hsame.sameOn (List.forall_mem_singleton.mpr ho)
  have hload (k : Word) (hk : k.toNat ≤ 32) (hk' : k.toNat + 4 ≤ 16 ∨ 18 ≤ k.toNat) :
      load32 (store16 m (mod + 16) id) (mod + k) = load32 m (mod + k) := by
    have ek := toNat_field k hfit (by omega)
    refine load32_sameOn (hclear ?_) (by omega)
    unfold Span.Disjoint Span.stop
    dsimp only
    omega
  have hflags : load16 (store16 m (mod + 16) id) (mod + 18) = load16 m (mod + 18) := by
    have e18 : (mod + 18).toNat = mod.toNat + 18 := toNat_field 18 hfit (by simp; omega)
    refine load16_sameOn (hclear ?_) (by omega)
    unfold Span.Disjoint Span.stop
    dsimp only
    omega
  have e36 : (mod + 36).toNat = mod.toNat + 36 := toNat_field 36 hfit (Nat.le_add_right _ _)
  have hlen : (r.name.bytes ++ [(0 : Byte)]).length = r.name.bytes.length + 1 := by simp
  refine ⟨?_, (hload 8 (by decide) (by decide)).trans h.name,
    (hload 12 (by decide) (by decide)).trans h.options, load16_store16 ..,
    hflags.trans h.flags, (hload 20 (by decide) (by decide)).trans h.alloc,
    (hload 24 (by decide) (by decide)).trans h.dealloc,
    (hload 28 (by decide) (by decide)).trans h.address,
    (hload 32 (by decide) (by decide)).trans h.size⟩
  refine BytesAt.of_sameOn h.string (hclear ?_) (by rw [hlen]; omega)
  unfold Span.Disjoint Span.stop
  dsimp only
  omega

theorem setExecId_spec {data bin len : Word} (h : Added m m' l ns mod ⟨s, 2, bin, len⟩)
    (hfit : mod.toNat + (37 + s.bytes.length) ≤ 2 ^ 32) (hc : CellsApart l (ns ++ [mod]))
    (hsep : ∀ c ∈ cells l ns, c.Disjoint (nodeSpan mod s.bytes.length)) :
    ∃ m'' log, setExecId data mod m' = ⟨some (), m'', log⟩ ∧
      Added m m'' l ns mod ⟨s, execId data, bin, len⟩ ∧
      ∀ w ∈ log, w.InsideOne [nodeSpan mod s.bytes.length] := by
  unfold setExecId execId
  split_ifs with hdata
  · exact ⟨m', [], rfl, h, fun w hw => absurd hw List.not_mem_nil⟩
  have e16 : (mod + 16).toNat = mod.toNat + 16 := toNat_field 16 hfit (by simp; omega)
  have hfit16 : (mod + 16).toNat + (be16Bytes 1).length ≤ 2 ^ 32 := by simp; omega
  have hsame := sameOutside_writeBytes m' (mod + 16) (be16Bytes 1) hfit16
  rw [e16, be16Bytes_length] at hsame
  have hin : (Span.mk (mod.toNat + 16) 2).Inside (nodeSpan mod s.bytes.length) := by
    unfold Span.Inside Span.stop nodeSpan
    dsimp only
    omega
  refine ⟨_, _, rfl, ⟨?_, h.record.setId hfit 1, ?_⟩, ?_⟩
  · refine h.list.of_sameOn hc fun c hcell => hsame.sameOn ?_
    intro r hr
    obtain rfl := List.mem_singleton.mp hr
    rcases mem_cells_append.mp hcell with hcell | rfl
    · exact (hsep c hcell).mono ⟨le_rfl, le_rfl⟩ hin
    · unfold Span.Disjoint Span.stop
      dsimp only
      omega
  · refine h.frame.trans (hsame.mono ?_)
    intro r hr
    obtain rfl := List.mem_singleton.mp hr
    exact ⟨_, List.mem_cons_self, hin⟩
  · intro w hw
    obtain rfl := List.mem_singleton.mp hw
    refine ⟨?_, _, List.mem_singleton_self _, ?_⟩
    · exact hfit16
    · show Span.Inside ⟨(mod + 16).toNat, 2⟩ _
      rw [e16]
      exact hin

/-! ## The list -/

theorem headSucc_run (l : Word) (m : Mem) :
    headSucc l m = ⟨some (load32 m (load32 m l)), m, []⟩ := rfl

/-- What is read of a list with the nodes `ns`: the links lead forward and back through the
    nodes to the sentinels, which have no further link, and `l_head` shows whether the list
    is empty. -/
structure Traversed (m : Mem) (l : Word) (ns : List Word) (fuel : ℕ) : Prop where
  forward : follow (nSucc m) fuel (load32 m l) = some (ns, l + 4)
  last : nSucc m (l + 4) = 0
  backward : follow (nPred m) fuel (load32 m (l + 8)) = some (ns.reverse, l)
  first : nPred m l = 0
  isEmpty : (headSucc l m).val = some 0 ↔ ns = []

theorem AosList.traversed (h : AosList m l ns) (h0 : ∀ k ∈ ns, k ≠ 0) (hl : l ≠ 0)
    (hl4 : l + 4 ≠ 0) {fuel : ℕ} (hfuel : ns.length < fuel) : Traversed m l ns fuel where
  forward := h.follow_nSucc h0 hl4 hfuel
  last := h.tail
  backward := h.follow_nPred h0 hl hfuel
  first := h.tail
  isEmpty := by
    rw [headSucc_run, Option.some_inj]
    exact h.isEmpty_iff h0 hl4

/-- **The list holds the added nodes in order.** The nodes, none of them `NULL`, do not
    overlap each other or the head. -/
theorem buildAlist_traversed (m : Mem) (hc : CellsApart l ns) (hl : l ≠ 0) (h0 : ∀ k ∈ ns, k ≠ 0)
    {fuel : ℕ} (hfuel : ns.length < fuel) :
    (buildAlist l ns m).val = some () ∧ Traversed (buildAlist l ns m).state l ns fuel := by
  obtain ⟨hval, hlist⟩ := buildAlist_run m hc
  have hl4 : l + 4 ≠ 0 := by
    have := hc.head
    bv_omega
  exact ⟨hval, hlist.traversed h0 hl hl4 hfuel⟩

/-- A list with two nodes. -/
theorem buildAlist_traversed_two :
    (buildAlist 0x600000 [0x60000c, 0x600040] fun _ => 0xff).val = some () ∧
      Traversed (buildAlist 0x600000 [0x60000c, 0x600040] fun _ => 0xff).state 0x600000
        [0x60000c, 0x600040] 3 :=
  buildAlist_traversed _ ⟨by decide +kernel, by decide +kernel⟩ (by decide) (by simp) (by decide)

end

end BBoot.Boot
