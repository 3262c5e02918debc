import BBoot.Common.Store

/-!
# AmigaOS lists

`list_t` is three words `l_head`, `l_tail`, `l_tailpred` (`aoslist.h` lines
31–33) that double as two overlapping sentinel nodes, one at the list and one
four bytes later. `AosList m l ns` says that the list at `l` holds the nodes at
`ns`: each neighbouring pair of `l`, the nodes and `l + 4` is linked both ways,
and the shared word `l_tail` is `NULL`.

Results:
* `alistInit_aosList`, `alistAddTail_aosList`: what the two operations build.
* `AosList.isEmpty_iff`: the test `l_head->n_succ == NULL` of the loader.
* `AosList.follow_nSucc`, `AosList.follow_nPred`: the traversals from both ends.
* `addTails_run`: adding any number of nodes.
-/

namespace BBoot.Boot

/-- `alist_init` (lines 35–40). -/
def alistInit (l : Word) : MemM Unit := do
  MemM.store l (l + 4)
  MemM.store (l + 4) 0
  MemM.store (l + 8) l

/-- `alist_add_tail` (lines 42–49). -/
def alistAddTail (l n : Word) : MemM Unit := do
  MemM.store n (l + 4)
  let tailpred ← MemM.load (l + 8)
  MemM.store (n + 4) tailpred
  let tailpred ← MemM.load (l + 8)
  MemM.store tailpred n
  MemM.store (l + 8) n

/-- The nodes `ns` are added one after the other. -/
def addTails (l : Word) : List Word → MemM Unit
  | [] => pure ()
  | n :: ns => do
    alistAddTail l n
    addTails l ns

/-- A new list with the nodes `ns`. -/
def buildAlist (l : Word) (ns : List Word) : MemM Unit := do
  alistInit l
  addTails l ns

/-- `n_succ` of a node. -/
def nSucc (m : Mem) (p : Word) : Word := load32 m p

/-- `n_pred` of a node. -/
def nPred (m : Mem) (p : Word) : Word := load32 m (p + 4)

/-- The nodes from `p` on, and the sentinel: `next` is followed to the node that has none. -/
def follow (next : Word → Word) : ℕ → Word → Option (List Word × Word)
  | 0, _ => none
  | fuel + 1, p =>
    if next p = 0 then some ([], p)
    else (follow next fuel (next p)).map fun r => (p :: r.1, r.2)

/-! ## Representation -/

/-- `b` follows `a`: `n_succ` of `a` and `n_pred` of `b`. -/
def Linked (m : Mem) (a b : Word) : Prop := load32 m a = b ∧ load32 m (b + 4) = a

/-- The list at `l` holds the nodes at `ns`. -/
structure AosList (m : Mem) (l : Word) (ns : List Word) : Prop where
  links : List.IsChain (Linked m) (l :: ns ++ [l + 4])
  tail : load32 m (l + 4) = 0

/-- The ranges of the list head and its nodes. -/
def cells (l : Word) (ns : List Word) : List Span :=
  ⟨l.toNat, 12⟩ :: ns.map fun n => ⟨n.toNat, 8⟩

/-- The head and the nodes do not overlap and end by `2^32`. -/
structure CellsApart (l : Word) (ns : List Word) : Prop where
  apart : (cells l ns).Pairwise Span.Disjoint
  fits : ∀ r ∈ cells l ns, r.stop ≤ 2 ^ 32

variable {m m' : Mem} {l n : Word} {ns : List Word}

theorem CellsApart.head (h : CellsApart l ns) : l.toNat + 12 ≤ 2 ^ 32 :=
  h.fits ⟨l.toNat, 12⟩ List.mem_cons_self

theorem CellsApart.node (h : CellsApart l ns) (hn : n ∈ ns) : n.toNat + 8 ≤ 2 ^ 32 :=
  h.fits ⟨n.toNat, 8⟩ (List.mem_cons_of_mem _ (List.mem_map_of_mem hn))

theorem CellsApart.head_node (h : CellsApart l ns) (hn : n ∈ ns) :
    (Span.mk l.toNat 12).Disjoint ⟨n.toNat, 8⟩ :=
  (List.pairwise_cons.mp h.apart).1 _ (List.mem_map_of_mem hn)

/-- The head and a node at the end of the list. -/
theorem CellsApart.head_new (h : CellsApart l (ns ++ [n])) :
    l.toNat + 12 ≤ n.toNat ∨ n.toNat + 8 ≤ l.toNat := by
  have hln := h.head_node (n := n) (List.mem_append_right _ List.mem_cons_self)
  unfold Span.Disjoint Span.stop at hln
  dsimp only at hln
  omega

/-- Two different nodes do not overlap. -/
theorem CellsApart.node_node (h : CellsApart l ns) {k : Word} (hn : n ∈ ns) (hk : k ∈ ns)
    (hne : n ≠ k) : (Span.mk n.toNat 8).Disjoint ⟨k.toNat, 8⟩ := by
  have hp := List.pairwise_map.mp (List.pairwise_cons.mp h.apart).2
  have : Std.Symm fun n k : Word => (Span.mk n.toNat 8).Disjoint ⟨k.toNat, 8⟩ :=
    ⟨fun _ _ h => h.symm⟩
  exact hp.forall hn hk hne

/-- A store leaves the words it does not meet alone. -/
theorem load32_store32_of_clear {a p v : Word} (ha : a.toNat + 4 ≤ 2 ^ 32)
    (hp : p.toNat + 4 ≤ 2 ^ 32) (h : a.toNat + 4 ≤ p.toNat ∨ p.toNat + 4 ≤ a.toNat) :
    load32 (store32 m p v) a = load32 m a := by
  refine load32_sameOn ((sameOutside_writeBytes m p _ (by simpa using hp)).sameOn ?_) ha
  intro r hr
  obtain rfl := List.mem_singleton.mp hr
  unfold Span.Disjoint Span.stop
  simp only [be32Bytes_length]
  omega

/-- The list only depends on its cells. -/
theorem AosList.of_sameOn (h : AosList m l ns) (hc : CellsApart l ns)
    (hsame : ∀ r ∈ cells l ns, SameOn m m' r) : AosList m' l ns := by
  have hhead : ∀ k : Word, k.toNat + 4 ≤ l.toNat + 12 → l.toNat ≤ k.toNat →
      load32 m' k = load32 m k := by
    intro k hk1 hk2
    have hl := hc.head
    refine load32_sameOn ((hsame _ List.mem_cons_self).mono ⟨hk2, ?_⟩) (by omega)
    show k.toNat + 4 ≤ l.toNat + 12
    exact hk1
  have hnode : ∀ k ∈ ns, ∀ a : Word, k.toNat ≤ a.toNat → a.toNat + 4 ≤ k.toNat + 8 →
      load32 m' a = load32 m a := by
    intro k hk a ha1 ha2
    have hk8 := hc.node hk
    refine load32_sameOn ((hsame ⟨k.toNat, 8⟩ ?_).mono ⟨ha1, ?_⟩) (by omega)
    · exact List.mem_cons_of_mem _ (List.mem_map_of_mem hk)
    · show a.toNat + 4 ≤ k.toNat + 8
      exact ha2
  have hl := hc.head
  refine ⟨h.links.imp_of_mem_tail_imp ?_, ?_⟩
  · intro a b ha hb hlink
    refine ⟨Eq.trans ?_ hlink.1, Eq.trans ?_ hlink.2⟩
    · -- `n_succ` of the head, of a node, or of the end sentinel
      simp only [List.cons_append, List.mem_cons, List.mem_append, List.not_mem_nil,
        or_false] at ha
      rcases ha with rfl | ha | rfl
      · exact hhead a (by omega) le_rfl
      · exact hnode a ha a le_rfl (by omega)
      · exact hhead _ (by bv_omega) (by bv_omega)
    · -- `n_pred` of a node or of the end sentinel
      simp only [List.cons_append, List.tail_cons, List.mem_append, List.mem_cons,
        List.not_mem_nil, or_false] at hb
      rcases hb with hb | rfl
      · have := hc.node hb
        exact hnode b hb _ (by bv_omega) (by bv_omega)
      · exact hhead _ (by bv_omega) (by bv_omega)
  · rw [hhead (l + 4) (by bv_omega) (by bv_omega)]
    exact h.tail

/-! ## The operations -/

theorem alistInit_run (m : Mem) (l : Word) :
    alistInit l m = ⟨some (), store32 (store32 (store32 m l (l + 4)) (l + 4) 0) (l + 8) l,
      [⟨l, 4⟩, ⟨l + 4, 4⟩, ⟨l + 8, 4⟩]⟩ := rfl

theorem alistInit_aosList (m : Mem) (hl : l.toNat + 12 ≤ 2 ^ 32) :
    AosList (alistInit l m).state l [] := by
  rw [alistInit_run]
  have hhead : load32 (store32 (store32 (store32 m l (l + 4)) (l + 4) 0) (l + 8) l) l = l + 4 := by
    rw [load32_store32_of_clear (by omega) (by bv_omega) (by bv_omega),
      load32_store32_of_clear (by omega) (by bv_omega) (by bv_omega), load32_store32]
  have htail : load32 (store32 (store32 (store32 m l (l + 4)) (l + 4) 0) (l + 8) l) (l + 4) = 0 := by
    rw [load32_store32_of_clear (by bv_omega) (by bv_omega) (by bv_omega), load32_store32]
  refine ⟨?_, htail⟩
  simp only [List.cons_append, List.nil_append, List.isChain_cons_cons, List.isChain_singleton,
    and_true]
  refine ⟨hhead, ?_⟩
  rw [BitVec.add_assoc]
  exact load32_store32 ..

/-- The last element of the head and the nodes is `l_tailpred`. -/
theorem AosList.tailpred (h : AosList m l ns) {pre : List Word} {t : Word}
    (ht : l :: ns = pre ++ [t]) : load32 m (l + 8) = t := by
  have hlink := h.links
  rw [ht, List.append_assoc, List.singleton_append, List.isChain_append_cons_cons] at hlink
  have := hlink.2.1.2
  rwa [BitVec.add_assoc] at this

/-- The memory after a node was added behind `t`. -/
def addTailMem (m : Mem) (l n t : Word) : Mem :=
  store32 (store32 (store32 (store32 m n (l + 4)) (n + 4) t) t n) (l + 8) n

/-- The words the operation does not store. -/
theorem load32_addTailMem {t a : Word} (hc : CellsApart l (ns ++ [n])) (ht : t ∈ l :: ns)
    (ha : a.toNat + 4 ≤ 2 ^ 32) (han : a.toNat + 4 ≤ n.toNat ∨ n.toNat + 8 ≤ a.toNat)
    (hat : a.toNat + 4 ≤ t.toNat ∨ t.toNat + 4 ≤ a.toNat)
    (hal : a.toNat + 4 ≤ l.toNat + 8 ∨ l.toNat + 12 ≤ a.toNat) :
    load32 (addTailMem m l n t) a = load32 m a := by
  have hl := hc.head
  have hn := hc.node (n := n) (List.mem_append_right _ List.mem_cons_self)
  have ht4 : t.toNat + 4 ≤ 2 ^ 32 := by
    rcases List.mem_cons.mp ht with rfl | ht
    · omega
    · have := hc.node (List.mem_append_left [n] ht)
      omega
  unfold addTailMem
  rw [load32_store32_of_clear ha (by bv_omega) (by bv_omega),
    load32_store32_of_clear ha ht4 hat, load32_store32_of_clear ha (by bv_omega) (by bv_omega),
    load32_store32_of_clear ha (by omega) (by omega)]

/-- What `alist_add_tail` stores. -/
theorem alistAddTail_run (h : AosList m l ns) (hc : CellsApart l (ns ++ [n])) {pre : List Word}
    {t : Word} (ht : l :: ns = pre ++ [t]) :
    alistAddTail l n m =
      ⟨some (), addTailMem m l n t, [⟨n, 4⟩, ⟨n + 4, 4⟩, ⟨t, 4⟩, ⟨l + 8, 4⟩]⟩ := by
  have hl := hc.head
  have hn := hc.node (n := n) (List.mem_append_right _ List.mem_cons_self)
  have hln := hc.head_new
  have ht1 : load32 (store32 m n (l + 4)) (l + 8) = t := by
    rw [load32_store32_of_clear (by bv_omega) (by omega) (by bv_omega), h.tailpred ht]
  have ht2 : load32 (store32 (store32 m n (l + 4)) (n + 4) t) (l + 8) = t := by
    rw [load32_store32_of_clear (by bv_omega) (by bv_omega) (by bv_omega), ht1]
  have e1 : MemM.load (l + 8) (store32 m n (l + 4)) = ⟨some t, store32 m n (l + 4), []⟩ := by
    show Outcome.mk (some (load32 (store32 m n (l + 4)) (l + 8))) _ _ = _
    rw [ht1]
  have e2 : MemM.load (l + 8) (store32 (store32 m n (l + 4)) (n + 4) t) =
      ⟨some t, store32 (store32 m n (l + 4)) (n + 4) t, []⟩ := by
    show Outcome.mk (some (load32 (store32 (store32 m n (l + 4)) (n + 4) t) (l + 8))) _ _ = _
    rw [ht2]
  unfold alistAddTail
  have s1 : MemM.store n (l + 4) m = ⟨some (), store32 m n (l + 4), [⟨n, 4⟩]⟩ := rfl
  have s2 : MemM.store (n + 4) t (store32 m n (l + 4)) =
      ⟨some (), store32 (store32 m n (l + 4)) (n + 4) t, [⟨n + 4, 4⟩]⟩ := rfl
  rw [Traced.bind_run_some s1, Traced.bind_run_some e1, Traced.bind_run_some s2,
    Traced.bind_run_some e2]
  rfl

/-- Where a node `k` of the list lies when `n` is added behind `t`. -/
structure NodeApart (l n t k : Word) : Prop where
  fits : k.toNat + 8 ≤ 2 ^ 32
  head : k.toNat + 8 ≤ l.toNat ∨ l.toNat + 12 ≤ k.toNat
  new : k.toNat + 8 ≤ n.toNat ∨ n.toNat + 8 ≤ k.toNat
  last : k = t ∨ k.toNat + 8 ≤ t.toNat ∨ t.toNat + 8 ≤ k.toNat

/-- Where the last node, or the head of an empty list, lies. -/
structure LastApart (l n t : Word) : Prop where
  fits : t.toNat + 8 ≤ 2 ^ 32
  head : t = l ∨ t.toNat + 8 ≤ l.toNat ∨ l.toNat + 12 ≤ t.toNat
  new : t.toNat + 8 ≤ n.toNat ∨ n.toNat + 8 ≤ t.toNat

section

variable {t : Word} (hc : CellsApart l (ns ++ [n])) (ht : t ∈ l :: ns)

include hc ht

theorem CellsApart.nodeApart {k : Word} (hk : k ∈ ns) : NodeApart l n t k := by
  have hk' : k ∈ ns ++ [n] := List.mem_append_left _ hk
  have h1 := hc.head_node hk'
  have h2 : (Span.mk k.toNat 8).Disjoint ⟨n.toNat, 8⟩ := by
    have hp := (List.pairwise_cons.mp hc.apart).2
    rw [List.map_append, List.pairwise_append] at hp
    exact hp.2.2 _ (List.mem_map_of_mem hk) _ (by simp)
  have h3 : k = t ∨ (k.toNat + 8 ≤ t.toNat ∨ t.toNat + 8 ≤ k.toNat) := by
    rcases List.mem_cons.mp ht with rfl | ht'
    · unfold Span.Disjoint Span.stop at h1
      dsimp only at h1
      omega
    · by_cases hkt : k = t
      · exact Or.inl hkt
      · have := hc.node_node hk' (List.mem_append_left _ ht') hkt
        unfold Span.Disjoint Span.stop at this
        dsimp only at this
        omega
  unfold Span.Disjoint Span.stop at h1 h2
  dsimp only at h1 h2
  exact ⟨hc.node hk', by omega, by omega, h3⟩

theorem CellsApart.lastApart : LastApart l n t := by
  have hl := hc.head
  have hln := hc.head_new
  rcases List.mem_cons.mp ht with rfl | ht'
  · exact ⟨by omega, Or.inl rfl, by omega⟩
  · have hnode := hc.nodeApart ht ht'
    exact ⟨hnode.fits, Or.inr hnode.head, hnode.new⟩

/-- The new node is linked on both sides. -/
theorem linked_addTailMem :
    Linked (addTailMem m l n t) t n ∧ Linked (addTailMem m l n t) n (l + 4) := by
  obtain ⟨htfit, htl, htn⟩ := hc.lastApart ht
  have hl := hc.head
  have hn := hc.node (n := n) (List.mem_append_right _ List.mem_cons_self)
  have hln := hc.head_new
  have hsucc : load32 (addTailMem m l n t) t = n := by
    unfold addTailMem
    rw [load32_store32_of_clear (by omega) (by bv_omega) (by bv_omega), load32_store32]
  have hpred : load32 (addTailMem m l n t) (n + 4) = t := by
    unfold addTailMem
    rw [load32_store32_of_clear (by bv_omega) (by bv_omega) (by bv_omega),
      load32_store32_of_clear (by bv_omega) (by omega) (by bv_omega), load32_store32]
  have hsuccn : load32 (addTailMem m l n t) n = l + 4 := by
    unfold addTailMem
    rw [load32_store32_of_clear (by omega) (by bv_omega) (by bv_omega),
      load32_store32_of_clear (by omega) (by omega) (by omega),
      load32_store32_of_clear (by omega) (by bv_omega) (by bv_omega), load32_store32]
  have htailpred : load32 (addTailMem m l n t) (l + 4 + 4) = n := by
    rw [BitVec.add_assoc]
    exact load32_store32 ..
  exact ⟨⟨hsucc, hpred⟩, hsuccn, htailpred⟩

/-- The links in front of the last node stay. -/
theorem Linked.addTailMem {a b : Word} (hlink : Linked m a b) (ha : a ∈ l :: ns) (hat : a ≠ t)
    (hb : b ∈ ns) : Linked (addTailMem m l n t) a b := by
  obtain ⟨htfit, htl, htn⟩ := hc.lastApart ht
  have hbnode := hc.nodeApart ht hb
  have hl := hc.head
  have hln := hc.head_new
  have hclear : a.toNat + 4 ≤ 2 ^ 32 ∧ (a.toNat + 4 ≤ n.toNat ∨ n.toNat + 8 ≤ a.toNat) ∧
      (a.toNat + 4 ≤ t.toNat ∨ t.toNat + 4 ≤ a.toNat) ∧
      (a.toNat + 4 ≤ l.toNat + 8 ∨ l.toNat + 12 ≤ a.toNat) := by
    rcases List.mem_cons.mp ha with rfl | ha
    · have := htl.resolve_left hat.symm
      omega
    · obtain ⟨hfit, hhead, hnew, hlast⟩ := hc.nodeApart ht ha
      have := hlast.resolve_left hat
      omega
  obtain ⟨hfit, han, hat', hal⟩ := hclear
  refine ⟨(load32_addTailMem hc ht hfit han hat' hal).trans hlink.1, Eq.trans ?_ hlink.2⟩
  obtain ⟨hfit, hhead, hnew, hlast⟩ := hbnode
  have hb4 : (b + 4).toNat = b.toNat + 4 := by bv_omega
  refine load32_addTailMem hc ht (by omega) (by omega) ?_ (by omega)
  rcases hlast with rfl | hlast
  · omega
  · omega

end

/-- `alist_add_tail` adds the node at the end. -/
theorem alistAddTail_aosList (h : AosList m l ns) (hc : CellsApart l (ns ++ [n])) :
    AosList (alistAddTail l n m).state l (ns ++ [n]) := by
  obtain ⟨pre, t, ht⟩ : ∃ pre t, l :: ns = pre ++ [t] :=
    ⟨_, _, (List.dropLast_append_getLast (List.cons_ne_nil l ns)).symm⟩
  have htmem : t ∈ l :: ns := by simp [ht]
  rw [alistAddTail_run h hc ht]
  have hlinks := h.links
  rw [ht] at hlinks
  have hlast : load32 m t = l + 4 := by
    rw [List.append_assoc, List.singleton_append, List.isChain_append_cons_cons] at hlinks
    exact hlinks.2.1.1
  have hold : List.IsChain (Linked (addTailMem m l n t)) (pre ++ [t]) := by
    rw [← ht] at hlinks ⊢
    refine hlinks.left_of_append.imp_of_mem_tail_imp fun a b ha hb hlink => ?_
    refine hlink.addTailMem hc htmem ha ?_ hb
    -- `n_succ` of the last node is the end sentinel, which is no node
    rintro rfl
    have hbl : b = l + 4 := hlink.1.symm.trans hlast
    obtain ⟨hfit, hhead, -⟩ := hc.nodeApart htmem hb
    have hl := hc.head
    bv_omega
  obtain ⟨hlink, hend⟩ := linked_addTailMem (m := m) hc htmem
  refine ⟨?_, ?_⟩
  · show List.IsChain _ (l :: (ns ++ [n]) ++ [l + 4])
    rw [← List.cons_append, ht, List.append_assoc]
    refine hold.append (List.isChain_cons_cons.mpr ⟨hend, List.isChain_singleton _⟩) ?_
    intro x hx y hy
    obtain rfl : x = t := by simpa using hx.symm
    obtain rfl : y = n := by simpa using hy.symm
    exact hlink
  · obtain ⟨htfit, htl, htn⟩ := hc.lastApart htmem
    have hl := hc.head
    have hln := hc.head_new
    show load32 (addTailMem m l n t) (l + 4) = 0
    rw [load32_addTailMem hc htmem (by bv_omega) (by bv_omega) (by bv_omega) (by bv_omega)]
    exact h.tail

/-! ## Reading the list -/

/-- The test `l_head->n_succ == NULL` of the loader. -/
theorem AosList.isEmpty_iff (h : AosList m l ns) (h0 : ∀ k ∈ ns, k ≠ 0) (hl : l + 4 ≠ 0) :
    load32 m (load32 m l) = 0 ↔ ns = [] := by
  have hlinks := h.links
  cases ns with
  | nil =>
    have hhead : load32 m l = l + 4 := (List.isChain_cons_cons.mp hlinks).1.1
    rw [hhead]
    exact iff_of_true h.tail rfl
  | cons k ks =>
    obtain ⟨hhead, hrest⟩ := List.isChain_cons_cons.mp hlinks
    rw [hhead.1]
    refine iff_of_false ?_ (List.cons_ne_nil _ _)
    cases ks with
    | nil =>
      have hk := (List.isChain_cons_cons.mp hrest).1.1
      rw [hk]
      exact hl
    | cons k' ks =>
      have hk := (List.isChain_cons_cons.mp hrest).1.1
      rw [hk]
      exact h0 k' (by simp)

/-- A chain of links is followed to its end; by induction on the nodes. -/
theorem follow_eq {next : Word → Word} {p q : Word} {fuel : ℕ}
    (h : List.IsChain (fun a b => next a = b) (p :: ns ++ [q])) (hq : next q = 0)
    (h0 : ∀ k ∈ ns ++ [q], k ≠ 0) (hf : ns.length < fuel) :
    follow next fuel (next p) = some (ns, q) := by
  induction ns generalizing p fuel with
  | nil =>
    obtain ⟨fuel, rfl⟩ := Nat.exists_eq_succ_of_ne_zero (Nat.ne_of_gt hf)
    have hp : next p = q := (List.isChain_cons_cons.mp h).1
    rw [follow, hp, if_pos hq]
  | cons k ks ih =>
    obtain ⟨fuel, rfl⟩ := Nat.exists_eq_succ_of_ne_zero (Nat.ne_zero_of_lt hf)
    obtain ⟨hp, hrest⟩ := List.isChain_cons_cons.mp h
    have hk : next k ≠ 0 := by
      cases ks with
      | nil =>
        have hkq : next k = q := (List.isChain_cons_cons.mp hrest).1
        exact hkq ▸ h0 q (by simp)
      | cons j js =>
        have hkj : next k = j := (List.isChain_cons_cons.mp hrest).1
        exact hkj ▸ h0 j (by simp)
    rw [follow, hp, if_neg hk, ih hrest (fun j hj => h0 j (List.mem_cons_of_mem _ hj))
      (Nat.lt_of_succ_lt_succ hf)]
    rfl

/-- `n_succ` leads from `l_head` through the nodes to the sentinel at `l_tail`. -/
theorem AosList.follow_nSucc (h : AosList m l ns) (h0 : ∀ k ∈ ns, k ≠ 0) (hl : l + 4 ≠ 0)
    {fuel : ℕ} (hf : ns.length < fuel) :
    follow (nSucc m) fuel (load32 m l) = some (ns, l + 4) := by
  refine follow_eq (p := l) (h.links.imp fun _ _ hlink => hlink.1) h.tail ?_ hf
  intro k hk
  rcases List.mem_append.mp hk with hk | hk
  · exact h0 k hk
  · exact List.mem_singleton.mp hk ▸ hl

/-- `n_pred` leads from `l_tailpred` back through the nodes to the sentinel at the list. -/
theorem AosList.follow_nPred (h : AosList m l ns) (h0 : ∀ k ∈ ns, k ≠ 0) (hl : l ≠ 0)
    {fuel : ℕ} (hf : ns.length < fuel) :
    follow (nPred m) fuel (load32 m (l + 8)) = some (ns.reverse, l) := by
  have hrev : (l :: ns ++ [l + 4]).reverse = (l + 4) :: ns.reverse ++ [l] := by simp
  have hlinks : List.IsChain (fun a b => nPred m a = b) ((l + 4) :: ns.reverse ++ [l]) := by
    rw [← hrev, List.isChain_reverse]
    exact h.links.imp fun _ _ hlink => hlink.2
  have hstart : load32 m (l + 8) = nPred m (l + 4) := by
    rw [nPred, BitVec.add_assoc]
    rfl
  rw [hstart]
  refine follow_eq hlinks h.tail ?_ (by rwa [List.length_reverse])
  intro k hk
  rcases List.mem_append.mp hk with hk | hk
  · exact h0 k (List.mem_reverse.mp hk)
  · exact List.mem_singleton.mp hk ▸ hl

/-! ## Adding nodes one after the other -/

theorem cells_append (l : Word) (ns ks : List Word) :
    cells l (ns ++ ks) = cells l ns ++ ks.map fun n => ⟨n.toNat, 8⟩ := by
  rw [cells, List.map_append]
  rfl

theorem mem_cells_append {c : Span} :
    c ∈ cells l (ns ++ [n]) ↔ c ∈ cells l ns ∨ c = ⟨n.toNat, 8⟩ := by
  rw [cells_append, List.mem_append, List.map_singleton, List.mem_singleton]

theorem CellsApart.left {ks : List Word} (h : CellsApart l (ns ++ ks)) : CellsApart l ns := by
  have hcells := cells_append l ns ks
  refine ⟨?_, ?_⟩
  · exact (List.pairwise_append.mp (hcells ▸ h.apart)).1
  · exact fun r hr => h.fits r (hcells ▸ List.mem_append_left _ hr)

/-- Every call returns and adds its node at the end; by induction on the nodes to add. -/
theorem addTails_run {ks : List Word} (h : AosList m l ns) (hc : CellsApart l (ns ++ ks)) :
    ∃ m' log, addTails l ks m = ⟨some (), m', log⟩ ∧ AosList m' l (ns ++ ks) := by
  induction ks generalizing m ns with
  | nil => exact ⟨m, [], rfl, by rwa [List.append_nil]⟩
  | cons k ks ih =>
    have hsplit : ns ++ k :: ks = ns ++ [k] ++ ks := by simp
    rw [hsplit] at hc
    obtain ⟨pre, t, ht⟩ : ∃ pre t, l :: ns = pre ++ [t] :=
      ⟨_, _, (List.dropLast_append_getLast (List.cons_ne_nil l ns)).symm⟩
    have hadd := alistAddTail_run h hc.left ht
    have hlist := alistAddTail_aosList h hc.left
    rw [hadd] at hlist
    obtain ⟨m', log, hrun, hlist'⟩ := ih hlist hc
    rw [addTails, Traced.bind_run_some hadd, hrun, hsplit]
    exact ⟨m', _, rfl, hlist'⟩

theorem buildAlist_run (m : Mem) (hc : CellsApart l ns) :
    (buildAlist l ns m).val = some () ∧ AosList (buildAlist l ns m).state l ns := by
  have hinit := alistInit_aosList m hc.head
  rw [alistInit_run] at hinit
  obtain ⟨m', log, hrun, hlist⟩ := addTails_run hinit (by rwa [List.nil_append])
  rw [buildAlist, Traced.bind_run_some (alistInit_run m l), hrun]
  exact ⟨rfl, hlist⟩

end BBoot.Boot
