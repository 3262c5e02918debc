import BBoot.Common.CString
import BBoot.Common.Span
import BBoot.Common.Traced

/-!
# Writing to memory

`writeBytes m p bs` is `m` after the bytes `bs` were written at `p`. Programs on
memory log where they write. `SameOn m m' r` says that two memories agree on the
range `r`; whatever is read from `r` then is the same. Ranges are on `ℕ`, so
the lemmas ask for ranges that end by `2^32`.

Results:
* `bytesAt_writeBytes`, `sameOn_writeBytes`: what a write puts there and what
  it leaves alone.
* `BytesAt.of_sameOn`, `load32_sameOn`: reads of an unchanged range.
* `load32_store32`: a load after a store.
-/

namespace BBoot

/-- The memory after `bs` was written at `p`. -/
def writeBytes (m : Mem) (p : Word) (bs : List Byte) : Mem :=
  fun a => (bs[(a - p).toNat]?).getD (m a)

/-- The bytes of a 32-bit store of the big-endian CPU. -/
def be32Bytes (v : Word) : List Byte :=
  [v.extractLsb' 24 8, v.extractLsb' 16 8, v.extractLsb' 8 8, v.extractLsb' 0 8]

/-- The bytes of a 16-bit store. -/
def be16Bytes (v : BitVec 16) : List Byte := [v.extractLsb' 8 8, v.extractLsb' 0 8]

/-- A 32-bit store. -/
def store32 (m : Mem) (p v : Word) : Mem := writeBytes m p (be32Bytes v)

/-- A 16-bit store. -/
def store16 (m : Mem) (p : Word) (v : BitVec 16) : Mem := writeBytes m p (be16Bytes v)

@[simp] theorem be32Bytes_length (v : Word) : (be32Bytes v).length = 4 := rfl

@[simp] theorem be16Bytes_length (v : BitVec 16) : (be16Bytes v).length = 2 := rfl

/-! ## Programs on memory -/

/-- A program on memory; the trace holds its writes. -/
abbrev MemM := Traced Mem Access

namespace MemM

/-- Write `bs` at `p`. -/
def write (p : Word) (bs : List Byte) : MemM Unit :=
  fun m => ⟨some (), writeBytes m p bs, [⟨p, bs.length⟩]⟩

/-- Store a word. -/
def store (p v : Word) : MemM Unit := write p (be32Bytes v)

/-- Store a half word. -/
def storeHalf (p : Word) (v : BitVec 16) : MemM Unit := write p (be16Bytes v)

/-- Load a word. -/
def load (p : Word) : MemM Word := Traced.look fun m => some (load32 m p)

end MemM

/-! ## Addresses inside a range -/

/-- The distance of an address from the start of a range is at least the length
    of the range if the address is outside. -/
theorem le_toNat_sub {a p : Word} {n : ℕ} (h : p.toNat + n ≤ 2 ^ 32)
    (ha : ¬ (Span.mk p.toNat n).Mem a.toNat) : n ≤ (a - p).toNat := by
  have ha' : a.toNat < p.toNat ∨ p.toNat + n ≤ a.toNat := by
    unfold Span.Mem Span.stop at ha
    simp only [not_and, not_lt] at ha
    omega
  have := a.isLt
  have := p.isLt
  rw [BitVec.toNat_sub]
  omega

/-! ## What a write changes -/

/-- The two memories agree on the range. -/
def SameOn (m m' : Mem) (r : Span) : Prop := ∀ a : Word, r.Mem a.toNat → m' a = m a

/-- The two memories agree outside the ranges. -/
def SameOutside (m m' : Mem) (rs : List Span) : Prop :=
  ∀ a : Word, (∀ r ∈ rs, ¬ r.Mem a.toNat) → m' a = m a

theorem SameOn.refl (m : Mem) (r : Span) : SameOn m m r := fun _ _ => rfl

theorem SameOn.trans {m m' m'' : Mem} {r : Span} (h : SameOn m m' r) (h' : SameOn m' m'' r) :
    SameOn m m'' r := fun a ha => (h' a ha).trans (h a ha)

theorem SameOn.mono {m m' : Mem} {r r' : Span} (h : SameOn m m' r) (hr : r'.Inside r) :
    SameOn m m' r' := fun a ha => h a ⟨hr.1.trans ha.1, ha.2.trans_le hr.2⟩

theorem SameOutside.refl (m : Mem) (rs : List Span) : SameOutside m m rs := fun _ _ => rfl

theorem SameOutside.trans {m m' m'' : Mem} {rs : List Span} (h : SameOutside m m' rs)
    (h' : SameOutside m' m'' rs) : SameOutside m m'' rs := fun a ha => (h' a ha).trans (h a ha)

/-- A change inside `rs` is one inside ranges that cover them. -/
theorem SameOutside.mono {m m' : Mem} {rs rs' : List Span} (h : SameOutside m m' rs)
    (hr : ∀ r ∈ rs, ∃ r' ∈ rs', r.Inside r') : SameOutside m m' rs' := by
  intro a ha
  apply h a
  intro r hr' hmem
  obtain ⟨r', hr'', hin⟩ := hr r hr'
  exact ha r' hr'' ⟨hin.1.trans hmem.1, hmem.2.trans_le hin.2⟩

/-- A range that meets none of the changed ones keeps its bytes. -/
theorem SameOutside.sameOn {m m' : Mem} {rs : List Span} {r : Span} (h : SameOutside m m' rs)
    (hd : ∀ r' ∈ rs, r.Disjoint r') : SameOn m m' r := by
  intro a ha
  apply h a
  intro r' hr' hmem
  exact (Span.disjoint_iff r r').mp (hd r' hr') _ ⟨ha, hmem⟩

theorem sameOutside_writeBytes (m : Mem) (p : Word) (bs : List Byte)
    (h : p.toNat + bs.length ≤ 2 ^ 32) :
    SameOutside m (writeBytes m p bs) [⟨p.toNat, bs.length⟩] := by
  intro a ha
  have hge := le_toNat_sub h (ha _ (List.mem_singleton_self _))
  rw [writeBytes, List.getElem?_eq_none hge]
  rfl

theorem bytesAt_writeBytes (m : Mem) {p : Word} {bs : List Byte} (h : bs.length ≤ 2 ^ 32) :
    BytesAt (writeBytes m p bs) p bs := by
  unfold BytesAt
  apply List.ext_getElem (by simp)
  intro i h1 h2
  have hi : (p + BitVec.ofNat 32 i - p).toNat = i := by
    rw [BitVec.add_comm, BitVec.add_sub_cancel, BitVec.toNat_ofNat, Nat.mod_eq_of_lt (by omega)]
  rw [readBytes_getElem, writeBytes, hi, List.getElem?_eq_getElem h2]
  rfl

/-! ## The trace accounts for every change -/

/-- The address is one of the bytes of the access. -/
def Access.Touches (w : Access) (a : Word) : Prop := (a - w.addr).toNat < w.len

/-- The bytes of an access, if it does not wrap. -/
def Access.span (w : Access) : Span := ⟨w.addr.toNat, w.len⟩

/-- The access ends by `2^32` and does not meet the range. -/
def Access.Clear (a : Access) (r : Span) : Prop := a.span.stop ≤ 2 ^ 32 ∧ a.span.Disjoint r

/-- Memories that agree outside some ranges agree on an access that meets none of them. -/
theorem SameOutside.access {m m' : Mem} {rs : List Span} (h : SameOutside m m' rs) {a : Access}
    (hfit : a.span.stop ≤ 2 ^ 32) (hclear : ∀ r ∈ rs, a.span.Disjoint r) : a.Same m m' := by
  intro i hi
  refine h _ fun r hr hmem => ?_
  have hstop : a.addr.toNat + a.len ≤ 2 ^ 32 := hfit
  have hto : (a.addr + BitVec.ofNat 32 i).toNat = a.addr.toNat + i := toNat_add_ofNat hi hstop
  rw [hto] at hmem
  refine (Span.disjoint_iff _ _).mp (hclear r hr) _ ⟨⟨?_, ?_⟩, hmem⟩
  · exact Nat.le_add_right _ _
  · show a.addr.toNat + i < a.addr.toNat + a.len
    omega

/-- The access ends by `2^32` and lies inside one of the ranges. -/
def Access.InsideOne (w : Access) (rs : List Span) : Prop :=
  w.span.stop ≤ 2 ^ 32 ∧ ∃ r ∈ rs, w.span.Inside r

theorem Access.InsideOne.mono {w : Access} {rs rs' : List Span} (h : w.InsideOne rs)
    (hr : ∀ r ∈ rs, ∃ r' ∈ rs', r.Inside r') : w.InsideOne rs' := by
  obtain ⟨hstop, r, hmem, hin⟩ := h
  obtain ⟨r', hmem', hin'⟩ := hr r hmem
  exact ⟨hstop, r', hmem', hin'.1.trans hin.1, hin.2.trans hin'.2⟩

/-- The bytes that the writes `log` do not touch are the same in both. -/
def Accounts (m : Mem) (log : List Access) (m' : Mem) : Prop :=
  ∀ a : Word, (∀ w ∈ log, ¬ w.Touches a) → m' a = m a

theorem Accounts.refl (m : Mem) (log : List Access) : Accounts m log m := fun _ _ => rfl

theorem Accounts.append {m m' m'' : Mem} {log log' : List Access} (h : Accounts m log m')
    (h' : Accounts m' log' m'') : Accounts m (log ++ log') m'' := by
  intro a ha
  rw [h' a fun w hw => ha w (List.mem_append_right _ hw)]
  exact h a fun w hw => ha w (List.mem_append_left _ hw)

/-- A program on memory changes only what its trace says it writes. -/
def MemM.Honest {α : Type} (x : MemM α) : Prop := ∀ m, Accounts m (x m).log (x m).state

theorem MemM.honest_pure {α : Type} (a : α) : MemM.Honest (pure a) := fun _ _ _ => rfl

theorem MemM.honest_look {α : Type} (f : Mem → Option α) : MemM.Honest (Traced.look f) :=
  fun _ _ _ => rfl

theorem MemM.honest_write (p : Word) (bs : List Byte) : MemM.Honest (MemM.write p bs) := by
  intro m a ha
  have hge : ¬ (a - p).toNat < bs.length := ha ⟨p, bs.length⟩ (List.mem_singleton_self _)
  show (bs[(a - p).toNat]?).getD (m a) = m a
  rw [List.getElem?_eq_none (Nat.le_of_not_lt hge)]
  rfl

theorem MemM.honest_bind {α β : Type} {x : MemM α} {f : α → MemM β} (hx : MemM.Honest x)
    (hf : ∀ a, MemM.Honest (f a)) : MemM.Honest (x >>= f) := by
  intro m
  rw [Traced.bind_run]
  cases hv : (x m).val with
  | none => exact hx m
  | some a => exact (hx m).append (hf a _)

/-- A change by writes inside ranges is a change inside them. -/
theorem Accounts.sameOutside {m m' : Mem} {log : List Access} {rs : List Span}
    (h : Accounts m log m') (hlog : ∀ w ∈ log, w.InsideOne rs) : SameOutside m m' rs := by
  intro a ha
  apply h a
  intro w hw htouch
  obtain ⟨hstop, r, hr, hin⟩ := hlog w hw
  refine absurd htouch (Nat.not_lt.mpr (le_toNat_sub hstop ?_))
  intro hmem
  exact ha r hr ⟨hin.1.trans hmem.1, hmem.2.trans_le hin.2⟩

/-! ## Reads of an unchanged range -/

theorem readBytes_sameOn {m m' : Mem} {p : Word} {n : ℕ} (h : SameOn m m' ⟨p.toNat, n⟩)
    (hn : p.toNat + n ≤ 2 ^ 32) : readBytes m' p n = readBytes m p n := by
  apply List.ext_getElem (by simp)
  intro i h1 h2
  rw [readBytes_getElem, readBytes_getElem]
  rw [readBytes_length] at h1
  apply h
  rw [toNat_add_ofNat h1 hn]
  exact ⟨Nat.le_add_right _ _, Nat.add_lt_add_left h1 _⟩

theorem BytesAt.of_sameOn {m m' : Mem} {p : Word} {bs : List Byte} (hb : BytesAt m p bs)
    (h : SameOn m m' ⟨p.toNat, bs.length⟩) (hn : p.toNat + bs.length ≤ 2 ^ 32) : BytesAt m' p bs := by
  unfold BytesAt at hb ⊢
  rw [readBytes_sameOn h hn, hb]

theorem CStrAt.of_sameOn {m m' : Mem} {p : Word} {s : CStr} {r : Span} (hs : CStrAt m p s)
    (hin : (Span.mk p.toNat (s.bytes.length + 1)).Inside r) (h : SameOn m m' r)
    (hr : r.stop ≤ 2 ^ 32) : CStrAt m' p s := by
  have hlen : (s.bytes ++ [0]).length = s.bytes.length + 1 := by simp
  have hstop : p.toNat + (s.bytes.length + 1) ≤ 2 ^ 32 := hin.2.trans hr
  unfold CStrAt
  refine BytesAt.of_sameOn hs (h.mono ?_) ?_
  · rw [hlen]
    exact hin
  · rw [hlen]
    exact hstop

/-- Bytes in the middle are replaced by as many others. -/
theorem BytesAt.overwrite {m : Mem} {p : Word} {xs ys ys' zs : List Byte}
    (h : BytesAt m p (xs ++ (ys ++ zs))) (hlen : ys'.length = ys.length)
    (hfit : p.toNat + (xs.length + (ys.length + zs.length)) ≤ 2 ^ 32) :
    BytesAt (writeBytes m (p + BitVec.ofNat 32 xs.length) ys') p (xs ++ (ys' ++ zs)) := by
  rw [bytesAt_append, bytesAt_append] at h ⊢
  obtain ⟨hx, hy, hz⟩ := h
  by_cases hy0 : ys.length = 0
  · obtain rfl := List.length_eq_zero_iff.mp hy0
    obtain rfl := List.length_eq_zero_iff.mp hlen
    exact ⟨hx, hy, hz⟩
  have hpx : (p + BitVec.ofNat 32 xs.length).toNat = p.toNat + xs.length :=
    toNat_add_ofNat (n := xs.length + 1) (by omega) (by omega)
  have hsame := sameOutside_writeBytes m (p + BitVec.ofNat 32 xs.length) ys' (by omega)
  rw [hpx] at hsame
  refine ⟨hx.of_sameOn (hsame.sameOn ?_) (by omega), bytesAt_writeBytes m (by omega), ?_⟩
  · intro r hr
    obtain rfl := List.mem_singleton.mp hr
    exact Or.inr (Or.inr (Or.inl le_rfl))
  · rw [hlen] at hsame ⊢
    by_cases hz0 : zs.length = 0
    · obtain rfl := List.length_eq_zero_iff.mp hz0
      rfl
    have hpy : (p + BitVec.ofNat 32 xs.length + BitVec.ofNat 32 ys.length).toNat =
        p.toNat + xs.length + ys.length := by
      rw [toNat_add_ofNat (n := ys.length + 1) (by omega) (by omega), hpx]
    refine hz.of_sameOn (hsame.sameOn ?_) (by omega)
    intro r hr
    obtain rfl := List.mem_singleton.mp hr
    rw [hpy]
    exact Or.inr (Or.inr (Or.inr le_rfl))

/-- One write after another. -/
def writeAll (m : Mem) (ws : List (Word × List Byte)) : Mem :=
  ws.foldl (fun m w => writeBytes m w.1 w.2) m

/-- The range of a write. -/
def writeSpan (w : Word × List Byte) : Span := ⟨w.1.toNat, w.2.length⟩

theorem sameOutside_writeAll {ws : List (Word × List Byte)} (h : ∀ w ∈ ws, (writeSpan w).stop ≤ 2 ^ 32)
    (m : Mem) : SameOutside m (writeAll m ws) (ws.map writeSpan) := by
  induction ws generalizing m with
  | nil => exact SameOutside.refl m _
  | cons w ws ih =>
    have hw : SameOutside m (writeBytes m w.1 w.2) ((w :: ws).map writeSpan) := by
      refine (sameOutside_writeBytes m _ _ (h w List.mem_cons_self)).mono fun r hr => ?_
      obtain rfl := List.mem_singleton.mp hr
      exact ⟨writeSpan w, List.mem_cons_self, le_rfl, le_rfl⟩
    refine hw.trans ((ih (fun w' hw' => h w' (List.mem_cons_of_mem _ hw')) _).mono ?_)
    intro r hr
    exact ⟨r, List.mem_cons_of_mem _ hr, le_rfl, le_rfl⟩

/-- Writes to ranges that do not overlap are all there in the end. -/
theorem bytesAt_writeAll {ws : List (Word × List Byte)} (h : ∀ w ∈ ws, (writeSpan w).stop ≤ 2 ^ 32)
    (hd : ws.Pairwise fun w w' => (writeSpan w).Disjoint (writeSpan w')) (m : Mem) :
    ∀ w ∈ ws, BytesAt (writeAll m ws) w.1 w.2 := by
  induction ws generalizing m with
  | nil => exact fun w hw => absurd hw List.not_mem_nil
  | cons w ws ih =>
    have hrest : ∀ w' ∈ ws, (writeSpan w').stop ≤ 2 ^ 32 := fun w' hw' => h w' (List.mem_cons_of_mem _ hw')
    obtain ⟨hw, hws⟩ := List.pairwise_cons.mp hd
    intro w' hw'
    rcases List.mem_cons.mp hw' with rfl | hw'
    · have hstop : w'.1.toNat + w'.2.length ≤ 2 ^ 32 := h w' List.mem_cons_self
      refine (bytesAt_writeBytes m (by omega)).of_sameOn ?_ hstop
      refine (sameOutside_writeAll hrest _).sameOn ?_
      intro r hr
      obtain ⟨w'', hw'', rfl⟩ := List.mem_map.mp hr
      exact hw w'' hw''
    · exact ih hrest hws _ w' hw'

/-- A load is the four bytes. -/
theorem load32_of_bytesAt {m : Mem} {p v : Word} (h : BytesAt m p (be32Bytes v)) :
    load32 m p = v := by
  obtain ⟨h0, h1, h2, h3, -⟩ := by simpa only [be32Bytes, bytesAt_cons] using h
  have e2 : p + 1 + 1 = p + 2 := by rw [BitVec.add_assoc]; rfl
  have e3 : p + 1 + 1 + 1 = p + 3 := by rw [BitVec.add_assoc, BitVec.add_assoc]; rfl
  rw [e2] at h2
  rw [e3] at h3
  have join24 : v.extractLsb' 24 8 ++ v.extractLsb' 16 8 = v.extractLsb' 16 16 :=
    BitVec.extractLsb'_append_extractLsb'_eq_extractLsb' rfl
  have join16 : v.extractLsb' 16 16 ++ v.extractLsb' 8 8 = v.extractLsb' 8 24 :=
    BitVec.extractLsb'_append_extractLsb'_eq_extractLsb' rfl
  have join8 : v.extractLsb' 8 24 ++ v.extractLsb' 0 8 = v.extractLsb' 0 32 :=
    BitVec.extractLsb'_append_extractLsb'_eq_extractLsb' rfl
  rw [load32, h0, h1, h2, h3, join24, join16, join8, BitVec.extractLsb'_eq_self]

theorem load16_of_bytesAt {m : Mem} {p : Word} {v : BitVec 16} (h : BytesAt m p (be16Bytes v)) :
    load16 m p = v := by
  obtain ⟨h0, h1, -⟩ := by simpa only [be16Bytes, bytesAt_cons] using h
  have join : v.extractLsb' 8 8 ++ v.extractLsb' 0 8 = v.extractLsb' 0 16 :=
    BitVec.extractLsb'_append_extractLsb'_eq_extractLsb' rfl
  rw [load16, h0, h1, join, BitVec.extractLsb'_eq_self]

@[simp] theorem load32_store32 (m : Mem) (p v : Word) : load32 (store32 m p v) p = v :=
  load32_of_bytesAt (bytesAt_writeBytes m (by simp))

@[simp] theorem load16_store16 (m : Mem) (p : Word) (v : BitVec 16) :
    load16 (store16 m p v) p = v :=
  load16_of_bytesAt (bytesAt_writeBytes m (by simp))

theorem load32_sameOn {m m' : Mem} {p : Word} (h : SameOn m m' ⟨p.toNat, 4⟩)
    (hp : p.toNat + 4 ≤ 2 ^ 32) : load32 m' p = load32 m p := by
  have hr := readBytes_sameOn h hp
  simp only [readBytes, List.cons.injEq] at hr
  obtain ⟨h0, h1, h2, h3, -⟩ := hr
  have e2 : p + 1 + 1 = p + 2 := by rw [BitVec.add_assoc]; rfl
  have e3 : p + 2 + 1 = p + 3 := by rw [BitVec.add_assoc]; rfl
  rw [e2] at h2
  rw [e2, e3] at h3
  rw [load32, load32, h0, h1, h2, h3]

theorem load16_sameOn {m m' : Mem} {p : Word} (h : SameOn m m' ⟨p.toNat, 2⟩)
    (hp : p.toNat + 2 ≤ 2 ^ 32) : load16 m' p = load16 m p := by
  have hr := readBytes_sameOn h hp
  simp only [readBytes, List.cons.injEq] at hr
  obtain ⟨h0, h1, -⟩ := hr
  rw [load16, load16, h0, h1]

end BBoot
