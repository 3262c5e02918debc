import BBoot.Boot.Zipkick

/-!
# The ranges the loader stores to

A request is for a number of bytes, `need`, that the loader computes modulo
`2^32`: `size` is what it claims. `objects` are the things that are then stored
in the range. `Separate log` says that the ranges stored to in a run do not
overlap and end by `2^32`.

Results:
* `placed_iff_fits`: the objects of a request lie inside the claimed range and
  RAM, and apart from each other, exactly when the exact size is claimed and
  ends within RAM.
* `separate_prefixClosed`: the assumption that runs are analysed under.
* `Tiled.add`, `Tiled.addExec`: where the next range is.
-/

namespace BBoot.Boot

namespace Request

/-- The number of bytes stored, without wrapping and without the padding. -/
def need : Request → ℕ
  | text kicklayoutLen => kicklayoutLen.toNat + 2
  | list => 12
  | exec clen => clen.toNat
  | execNode nlen => 37 + nlen.toNat
  | module clen nlen => alignUp clen.toNat 4 + (37 + nlen.toNat)
  | args argsLen => argsLen.toNat

/-- What is stored for a request: a text, a list head, a file of its declared
    size, a `module_t` with its name. -/
def objects (addr : Word) : Request → List Access
  | text kicklayoutLen => [⟨addr, kicklayoutLen.toNat + 2⟩]
  | list => [⟨addr, 12⟩]
  | exec clen => [⟨addr, clen.toNat⟩]
  | execNode nlen => [⟨addr, 37 + nlen.toNat⟩]
  | module clen nlen => [⟨addr, clen.toNat⟩, ⟨addr + roundUp clen 4, 37 + nlen.toNat⟩]
  | args argsLen => [⟨addr, argsLen.toNat⟩]

/-- The bytes stored at `addr`. -/
def region (r : Request) (addr : Word) : Span := ⟨addr.toNat, r.need⟩

/-- The bytes claimed at `addr`. -/
def claimed (r : Request) (addr : Word) : Span := ⟨addr.toNat, r.size.toNat⟩

/-- Everything stored lies inside the claimed bytes and below `memsize`, and
    apart from each other. -/
structure Placed (memsize : Word) (r : Request) (addr : Word) : Prop where
  claimed : ∀ o ∈ r.objects addr, o.span.Inside (r.claimed addr)
  ram : ∀ o ∈ r.objects addr, o.span.stop ≤ memsize.toNat
  apart : (r.objects addr).Pairwise fun o o' => o.span.Disjoint o'.span

/-- The exact size is claimed, and it ends within RAM. -/
structure Fits (memsize : Word) (r : Request) (addr : Word) : Prop where
  exact : r.need ≤ r.size.toNat
  ram : addr.toNat + r.need ≤ memsize.toNat

theorem roundUp4_toNat (n : Word) : (roundUp n 4).toNat = alignUp n.toNat 4 % 2 ^ 32 :=
  roundUp_toNat n (k := 2) (by decide)

theorem roundUp32_toNat (n : Word) : (roundUp n 32).toNat = alignUp n.toNat 32 % 2 ^ 32 :=
  roundUp_toNat n (k := 5) (by decide)

theorem nodeSize_toNat (nlen : Word) :
    (sizeofModule + nlen + 1).toNat = (37 + nlen.toNat) % 2 ^ 32 := by
  rw [BitVec.toNat_add, BitVec.toNat_add, show sizeofModule.toNat = 36 from rfl,
    show (1 : Word).toNat = 1 from rfl]
  omega

theorem moduleSize_toNat (clen nlen : Word) :
    (roundUp clen 4 + (sizeofModule + nlen + 1)).toNat =
      (alignUp clen.toNat 4 + (37 + nlen.toNat)) % 2 ^ 32 := by
  rw [BitVec.toNat_add, roundUp4_toNat, nodeSize_toNat]
  omega

/-- A size that wraps to `0` is one of nearly all of memory. -/
theorem lt_need_of_size_eq_zero {r : Request} (hneed : 0 < r.need) (hsize : r.size = 0) :
    2 ^ 32 - 32 < r.need := by
  have hround (n : ℕ) (h : alignUp (n % 2 ^ 32) 32 % 2 ^ 32 = 0) (hn : 0 < n) : 2 ^ 32 - 32 < n := by
    have hge := le_alignUp (n % 2 ^ 32) (d := 32) (by omega)
    have hlt := alignUp_lt (n % 2 ^ 32) (d := 32) (by omega)
    omega
  have hzero : r.size.toNat = 0 := by rw [hsize]; rfl
  cases r with
  | text n =>
    rw [size, BitVec.toNat_add] at hzero
    rw [need]
    have : (2 : Word).toNat = 2 := rfl
    omega
  | list => exact absurd hsize (by decide)
  | exec clen => rw [need] at hneed; rw [size] at hzero; omega
  | args n => rw [need] at hneed; rw [size] at hzero; omega
  | execNode nlen =>
    rw [size, roundUp32_toNat, nodeSize_toNat] at hzero
    exact hround _ hzero hneed
  | module clen nlen =>
    rw [size, roundUp32_toNat, moduleSize_toNat] at hzero
    exact hround _ hzero hneed

/-- A module is placed well exactly if its size does not wrap. -/
theorem placed_module_iff (memsize clen nlen addr : Word) :
    Placed memsize (module clen nlen) addr ↔ Fits memsize (module clen nlen) addr := by
  have hle := le_alignUp clen.toNat (d := 4) (by omega)
  have hpow : alignUp clen.toNat 4 ≤ 2 ^ 32 := alignUp_le_pow (k := 2) (by omega) clen.isLt.le
  have hmod : (addr + roundUp clen 4).toNat = (addr.toNat + alignUp clen.toNat 4) % 2 ^ 32 := by
    rw [BitVec.toNat_add, roundUp4_toNat]
    omega
  have hsize : (module clen nlen).size.toNat =
      alignUp ((alignUp clen.toNat 4 + (37 + nlen.toNat)) % 2 ^ 32) 32 % 2 ^ 32 := by
    rw [size, roundUp32_toNat, moduleSize_toNat]
  have hge := le_alignUp ((alignUp clen.toNat 4 + (37 + nlen.toNat)) % 2 ^ 32) (d := 32) (by omega)
  have hlt := alignUp_lt ((alignUp clen.toNat 4 + (37 + nlen.toNat)) % 2 ^ 32) (d := 32) (by omega)
  obtain ⟨k, hk⟩ := dvd_alignUp ((alignUp clen.toNat 4 + (37 + nlen.toNat)) % 2 ^ 32) 32
  have := addr.isLt
  have := memsize.isLt
  constructor
  · intro h
    have h1 := h.claimed ⟨addr, clen.toNat⟩ List.mem_cons_self
    have h2 := h.claimed ⟨addr + roundUp clen 4, 37 + nlen.toNat⟩ (by simp [objects])
    have h3 := h.ram ⟨addr + roundUp clen 4, 37 + nlen.toNat⟩ (by simp [objects])
    simp only [Span.Inside, Access.span, claimed, Span.stop, hmod, hsize] at h1 h2 h3
    -- the `module_t` starts behind `addr`, so its address does not wrap
    have hnowrap : addr.toNat + alignUp clen.toNat 4 < 2 ^ 32 := by
      by_contra hwrap
      have hge : alignUp clen.toNat 4 = 2 ^ 32 := by omega
      have hlt := alignUp_lt clen.toNat (d := 4) (by omega)
      omega
    rw [Nat.mod_eq_of_lt hnowrap] at h2 h3
    have hexact : alignUp clen.toNat 4 + (37 + nlen.toNat) < 2 ^ 32 := by omega
    rw [Nat.mod_eq_of_lt hexact] at h1 h2
    refine ⟨?_, ?_⟩
    · rw [hsize, need, Nat.mod_eq_of_lt hexact]
      omega
    · rw [need]
      omega
  · intro h
    have h1 := h.exact
    have h2 := h.ram
    rw [hsize, need] at h1
    rw [need] at h2
    refine ⟨?_, ?_, ?_⟩
    · intro o ho
      simp only [objects, List.mem_cons, List.not_mem_nil, or_false] at ho
      rcases ho with rfl | rfl
      · simp only [Span.Inside, Access.span, claimed, Span.stop, hsize]
        omega
      · simp only [Span.Inside, Access.span, claimed, Span.stop, hmod, hsize]
        omega
    · intro o ho
      simp only [objects, List.mem_cons, List.not_mem_nil, or_false] at ho
      rcases ho with rfl | rfl
      · simp only [Access.span, Span.stop]
        omega
      · simp only [Access.span, Span.stop, hmod]
        omega
    · refine List.pairwise_pair.mpr ?_
      simp only [Span.Disjoint, Access.span, Span.stop, hmod]
      omega

/-- A request with one object is placed well exactly if that fits. -/
theorem placed_single_iff {memsize : Word} {r : Request} {addr : Word}
    (h : r.objects addr = [⟨addr, r.need⟩]) : Placed memsize r addr ↔ Fits memsize r addr := by
  constructor
  · intro hp
    have h1 := hp.claimed ⟨addr, r.need⟩ (by rw [h]; exact List.mem_cons_self)
    have h2 := hp.ram ⟨addr, r.need⟩ (by rw [h]; exact List.mem_cons_self)
    simp only [Span.Inside, Access.span, Request.claimed, Span.stop] at h1 h2
    exact ⟨by omega, h2⟩
  · intro hf
    have h1 := hf.exact
    refine ⟨?_, ?_, ?_⟩
    · intro o ho
      rw [h] at ho
      obtain rfl := List.mem_singleton.mp ho
      simp only [Span.Inside, Access.span, Request.claimed, Span.stop]
      omega
    · intro o ho
      rw [h] at ho
      obtain rfl := List.mem_singleton.mp ho
      exact hf.ram
    · rw [h]
      exact List.pairwise_singleton ..

theorem placed_iff_fits (memsize : Word) (r : Request) (addr : Word) :
    Placed memsize r addr ↔ Fits memsize r addr := by
  cases r with
  | module clen nlen => exact placed_module_iff memsize clen nlen addr
  | text kicklayoutLen => exact placed_single_iff rfl
  | list => exact placed_single_iff rfl
  | exec clen => exact placed_single_iff rfl
  | execNode nlen => exact placed_single_iff rfl
  | args argsLen => exact placed_single_iff rfl

end Request

/-! ## The ranges of a run -/

/-- The stores of a run, in order. -/
def stores : List Event → List (Request × Word)
  | [] => []
  | .store r addr :: log => (r, addr) :: stores log
  | _ :: log => stores log

/-- The ranges stored to. -/
def regions (log : List Event) : List Span := (stores log).map fun q => q.1.region q.2

theorem stores_append (l l' : List Event) : stores (l ++ l') = stores l ++ stores l' := by
  induction l with
  | nil => rfl
  | cons e l ih => cases e <;> simp [stores, ih]

theorem regions_append (l l' : List Event) : regions (l ++ l') = regions l ++ regions l' := by
  simp [regions, stores_append]

/-- The ranges stored to do not overlap and end by `2^32`. -/
structure Separate (log : List Event) : Prop where
  apart : (regions log).Pairwise Span.Disjoint
  fits : ∀ r ∈ regions log, r.stop ≤ 2 ^ 32

/-- An event that neither stores nor writes. -/
def Event.silent : Event → Bool
  | .store _ _ => false
  | .write _ => false
  | _ => true

theorem stores_of_silent {log : List Event} (h : ∀ e ∈ log, e.silent = true) : stores log = [] := by
  induction log with
  | nil => rfl
  | cons e l ih =>
    have he := h e List.mem_cons_self
    cases e with
    | store r addr => exact absurd he Bool.false_ne_true
    | _ => exact ih fun e' he' => h e' (List.mem_cons_of_mem _ he')

theorem stores_writes (ws : List Access) : stores (ws.map Event.write) = [] := by
  induction ws with
  | nil => rfl
  | cons w ws ih => exact ih

theorem mem_regions_of_stores {log : List Event} {q : Request × Word} (h : stores log = [q]) :
    q.1.region q.2 ∈ regions log := by
  rw [regions, h]
  exact List.mem_singleton_self _

theorem mem_regions_append {past log : List Event} {r : Span} (h : r ∈ regions past) :
    r ∈ regions (past ++ log) := by
  rw [regions_append]
  exact List.mem_append_left _ h

/-- A range stored to later is apart from those before. -/
theorem Separate.disjoint {past log : List Event} (h : Separate (past ++ log)) {r r' : Span}
    (hr : r ∈ regions past) (hr' : r' ∈ regions log) : r.Disjoint r' := by
  have h1 := h.apart
  rw [regions_append] at h1
  exact (List.pairwise_append.mp h1).2.2 r hr r' hr'

/-! ## The order of the ranges -/

/-- The image of `EXEC` has a fixed address of its own. -/
def Request.isExec : Request → Bool
  | .exec _ => true
  | _ => false

/-- Ranges claimed one behind the other from `a` on; the next one is claimed at `e`. -/
inductive Tiling (a : Word) : List (Request × Word) → Word → Prop
  | nil : Tiling a [] a
  | snoc {qs : List (Request × Word)} {e : Word} (r : Request) :
      Tiling a qs e → Tiling a (qs ++ [(r, e)]) (e + r.size)

/-- The stores behind the text that are for the image of `EXEC`, and the others. -/
def execStores (log : List Event) : List (Request × Word) :=
  (stores log).tail.filter fun q => q.1.isExec
def listStores (log : List Event) : List (Request × Word) :=
  (stores log).tail.filter fun q => !q.1.isExec

/-- The claims that were granted, in order, with what was returned. -/
def grants : List Event → List (Request × Word)
  | [] => []
  | .claim r _ ret :: log => if ret = 0 then grants log else (r, ret) :: grants log
  | _ :: log => grants log

/-- The stores of a run so far, each to a range that was granted: the text, at most one
    image of `EXEC` at `execAddr`, and one behind the other from `KICKLIST_ADDR` on the
    list and the modules, where `avail` is next. -/
structure Tiled (execAddr : Word) (log : List Event) (avail : Word) : Prop where
  granted : (stores log).Sublist (grants log)
  text : ∃ n k, (stores log).head? = some (.text n, k)
  exec : execStores log = [] ∨ ∃ clen, execStores log = [(.exec clen, execAddr)]
  list : Tiling kicklistAddr (listStores log) avail

section

variable {execAddr avail : Word} {past log : List Event}

theorem grants_append (l l' : List Event) : grants (l ++ l') = grants l ++ grants l' := by
  induction l with
  | nil => rfl
  | cons e l ih =>
    cases e with
    | claim r addr ret =>
      rw [List.cons_append, grants, grants, ih]
      split_ifs <;> rfl
    | _ => exact ih

theorem stores_tail (h : stores past ≠ []) (log : List Event) :
    (stores (past ++ log)).tail = (stores past).tail ++ stores log := by
  rw [stores_append, List.tail_append_of_ne_nil h]

theorem Tiled.stores_ne_nil (h : Tiled execAddr past avail) : stores past ≠ [] := by
  obtain ⟨n, k, hhead⟩ := h.text
  intro hnil
  rw [hnil] at hhead
  exact absurd hhead (by simp)

theorem Tiled.head_append (h : Tiled execAddr past avail) (log : List Event) :
    ∃ n k, (stores (past ++ log)).head? = some (.text n, k) := by
  obtain ⟨n, k, hhead⟩ := h.text
  refine ⟨n, k, ?_⟩
  rw [stores_append, List.head?_append, hhead]
  rfl

theorem Tiled.granted_append (h : Tiled execAddr past avail)
    (hlog : (stores log).Sublist (grants log)) :
    (stores (past ++ log)).Sublist (grants (past ++ log)) := by
  rw [stores_append, grants_append]
  exact h.granted.append hlog

theorem execStores_append (h : stores past ≠ []) (log : List Event) :
    execStores (past ++ log) = execStores past ++ (stores log).filter fun q => q.1.isExec := by
  rw [execStores, stores_tail h, List.filter_append]
  rfl

theorem listStores_append (h : stores past ≠ []) (log : List Event) :
    listStores (past ++ log) = listStores past ++ (stores log).filter fun q => !q.1.isExec := by
  rw [listStores, stores_tail h, List.filter_append]
  rfl

theorem Tiled.silent (h : Tiled execAddr past avail) (hlog : stores log = []) :
    Tiled execAddr (past ++ log) avail := by
  refine ⟨h.granted_append (by rw [hlog]; exact List.nil_sublist _), h.head_append log, ?_, ?_⟩
  · rw [execStores_append h.stores_ne_nil, hlog]
    simpa using h.exec
  · rw [listStores_append h.stores_ne_nil, hlog]
    simpa using h.list

/-- The next range is stored to. -/
theorem Tiled.add (h : Tiled execAddr past avail) {r : Request} (hr : r.isExec = false)
    (hlog : stores log = [(r, avail)]) (hgrant : grants log = [(r, avail)]) :
    Tiled execAddr (past ++ log) (avail + r.size) := by
  refine ⟨h.granted_append (by rw [hlog, hgrant]), h.head_append log, ?_, ?_⟩
  · rw [execStores_append h.stores_ne_nil, hlog]
    simpa [hr] using h.exec
  · have hfilter : [(r, avail)].filter (fun q => !q.1.isExec) = [(r, avail)] := by simp [hr]
    rw [listStores_append h.stores_ne_nil, hlog, hfilter]
    exact h.list.snoc r

/-- The image of `EXEC` is stored. -/
theorem Tiled.addExec (h : Tiled execAddr past avail) (hexec : execStores past = []) {clen : Word}
    (hlog : stores log = [(.exec clen, execAddr)]) (hgrant : grants log = [(.exec clen, execAddr)]) :
    Tiled execAddr (past ++ log) avail := by
  refine ⟨h.granted_append (by rw [hlog, hgrant]), h.head_append log, Or.inr ⟨clen, ?_⟩, ?_⟩
  · rw [execStores_append h.stores_ne_nil, hlog, hexec]
    rfl
  · have hfilter : [(Request.exec clen, execAddr)].filter (fun q => !q.1.isExec) = [] := rfl
    rw [listStores_append h.stores_ne_nil, hlog, hfilter, List.append_nil]
    exact h.list

theorem execStores_silent (h : stores past ≠ []) (hlog : stores log = []) :
    execStores (past ++ log) = execStores past := by
  rw [execStores_append h, hlog]
  exact List.append_nil _

end

/-- Every write of at least one byte is inside a range stored to. -/
def WritesInside (log : List Event) : Prop :=
  ∀ w, .write w ∈ log → w.len ≠ 0 → w.InsideOne (regions log)

theorem WritesInside.nil : WritesInside [] := fun _ hw => absurd hw List.not_mem_nil

/-- The writes of a program inside the ranges of the whole trace. -/
theorem WritesInside.append {past log : List Event} (h : WritesInside past)
    (h' : ∀ w, .write w ∈ log → w.len ≠ 0 → w.InsideOne (regions (past ++ log))) :
    WritesInside (past ++ log) := by
  intro w hw hlen
  rcases List.mem_append.mp hw with hw | hw
  · refine (h w hw hlen).mono fun r hr => ⟨r, ?_, le_rfl, le_rfl⟩
    rw [regions_append]
    exact List.mem_append_left _ hr
  · exact h' w hw hlen

end BBoot.Boot
