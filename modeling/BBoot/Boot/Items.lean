import BBoot.Boot.Modules

/-!
# The loaded modules

`ItemsAt m l items` says that the list at `l` holds the modules `items`, each with
its record and its data. The spans they take lie apart, and inside the ranges the
run has stored to (`Owned`), so that nothing stored later meets them.

Results:
* `ItemsAt.of_sameOn`: the modules depend on their spans only.
* `addModule_items`: `add_module` puts one more module on the list.
-/

namespace BBoot.Boot

/-! ## Spans in use -/

/-- Spans that lie apart, each inside a range stored to. -/
structure Owned (log : List Event) (spans : List Span) : Prop where
  apart : spans.Pairwise Span.Disjoint
  inside : ∀ o ∈ spans, ∃ r ∈ regions log, o.Inside r

section

variable {past log : List Event} {spans new : List Span}

theorem Owned.append (h : Owned past spans) (log : List Event) : Owned (past ++ log) spans where
  apart := h.apart
  inside o ho := by
    obtain ⟨r, hr, hin⟩ := h.inside o ho
    exact ⟨r, mem_regions_append hr, hin⟩

/-- What is stored to later is apart from what is in use. -/
theorem Owned.add (h : Owned past spans) (hsep : Separate (past ++ log))
    (hnew : new.Pairwise Span.Disjoint) (hin : ∀ o ∈ new, ∃ r ∈ regions log, o.Inside r) :
    Owned (past ++ log) (spans ++ new) where
  apart := by
    refine List.pairwise_append.mpr ⟨h.apart, hnew, fun o ho o' ho' => ?_⟩
    obtain ⟨r, hr, hor⟩ := h.inside o ho
    obtain ⟨r', hr', hor'⟩ := hin o' ho'
    exact (hsep.disjoint hr hr').mono hor hor'
  inside o ho := by
    rcases List.mem_append.mp ho with ho | ho
    · exact (h.append log).inside o ho
    · obtain ⟨r, hr, hor⟩ := hin o ho
      refine ⟨r, ?_, hor⟩
      rw [regions_append]
      exact List.mem_append_right _ hr

theorem Owned.fits (h : Owned past spans) (hsep : Separate past) {o : Span} (ho : o ∈ spans) :
    o.stop ≤ 2 ^ 32 := by
  obtain ⟨r, hr, hin⟩ := h.inside o ho
  exact hin.2.trans (hsep.fits r hr)

theorem Owned.sublist (h : Owned past spans) (hsub : new.Sublist spans) : Owned past new where
  apart := h.apart.sublist hsub
  inside o ho := h.inside o (hsub.subset ho)

end

/-! ## Modules -/

/-- A module on the list: its `module_t`, what that says, and its data. -/
structure Item where
  node : Word
  record : Module
  data : List Byte

/-- The `module_t` with the name. -/
def Item.nodeSpan (i : Item) : Span := Boot.nodeSpan i.node i.record.name.bytes.length

/-- The data. -/
def Item.dataSpan (i : Item) : Span := ⟨i.record.address.toNat, i.data.length⟩

def Item.spans (i : Item) : List Span := [i.nodeSpan, i.dataSpan]

/-- The list head and what the modules take. -/
def listSpans (l : Word) (items : List Item) : List Span := ⟨l.toNat, 12⟩ :: items.flatMap Item.spans

/-- The list at `l` holds the modules `items`. -/
structure ItemsAt (m : Mem) (l : Word) (items : List Item) : Prop where
  list : AosList m l (items.map Item.node)
  records : ∀ i ∈ items, ModuleAt m i.node i.record
  data : ∀ i ∈ items, BytesAt m i.record.address i.data

section

variable {m m' : Mem} {l : Word} {items : List Item} {i j : Item}

theorem nodeSpan_mem (h : i ∈ items) : i.nodeSpan ∈ listSpans l items :=
  List.mem_cons_of_mem _ (List.mem_flatMap.mpr ⟨i, h, List.mem_cons_self⟩)

theorem dataSpan_mem (h : i ∈ items) : i.dataSpan ∈ listSpans l items :=
  List.mem_cons_of_mem _ (List.mem_flatMap.mpr ⟨i, h, List.mem_cons_of_mem _ List.mem_cons_self⟩)

theorem listSpans_append (l : Word) (items : List Item) (i : Item) :
    listSpans l (items ++ [i]) = listSpans l items ++ i.spans := by
  rw [listSpans, listSpans, List.flatMap_append, List.flatMap_singleton, List.cons_append]

theorem cell_inside (i : Item) : (Span.mk i.node.toNat 8).Inside i.nodeSpan := by
  refine ⟨le_rfl, ?_⟩
  show i.node.toNat + 8 ≤ i.node.toNat + (37 + i.record.name.bytes.length)
  omega

theorem payload_inside (i : Item) :
    (payloadSpan i.node i.record.name.bytes.length).Inside i.nodeSpan := by
  constructor
  · show i.node.toNat ≤ i.node.toNat + 8
    omega
  · show i.node.toNat + 8 + (29 + i.record.name.bytes.length) ≤
      i.node.toNat + (37 + i.record.name.bytes.length)
    omega

/-- The cells of the list are the head and the starts of the `module_t`. -/
theorem mem_cells {c : Span} (hc : c ∈ cells l (items.map Item.node)) :
    c = ⟨l.toNat, 12⟩ ∨ ∃ i ∈ items, c = ⟨i.node.toNat, 8⟩ := by
  rcases List.mem_cons.mp hc with rfl | hc
  · exact Or.inl rfl
  · rw [List.map_map] at hc
    obtain ⟨i, hi, rfl⟩ := List.mem_map.mp hc
    exact Or.inr ⟨i, hi, rfl⟩

theorem cells_inside_spans {c : Span} (hc : c ∈ cells l (items.map Item.node)) :
    ∃ o ∈ listSpans l items, c.Inside o := by
  rcases mem_cells hc with rfl | ⟨i, hi, rfl⟩
  · exact ⟨_, List.mem_cons_self, le_rfl, le_rfl⟩
  · exact ⟨_, nodeSpan_mem hi, cell_inside i⟩

section

variable (hspans : (listSpans l items).Pairwise Span.Disjoint)

include hspans

theorem spans_pairwise : items.Pairwise fun i j => ∀ o ∈ i.spans, ∀ o' ∈ j.spans, o.Disjoint o' :=
  (List.pairwise_flatMap.mp (List.pairwise_cons.mp hspans).2).2

theorem head_disjoint {o : Span} (hi : i ∈ items) (ho : o ∈ i.spans) :
    (Span.mk l.toNat 12).Disjoint o :=
  (List.pairwise_cons.mp hspans).1 o (List.mem_flatMap.mpr ⟨i, hi, ho⟩)

/-- The data of a module does not meet any `module_t`. -/
theorem data_disjoint_node (hi : i ∈ items) (hj : j ∈ items) : i.dataSpan.Disjoint j.nodeSpan := by
  have hself : ∀ i ∈ items, i.dataSpan.Disjoint i.nodeSpan := by
    intro i hi
    have hp := (List.pairwise_flatMap.mp (List.pairwise_cons.mp hspans).2).1 i hi
    exact (List.pairwise_pair.mp hp).symm
  have hpair : items.Pairwise fun i j => i.dataSpan.Disjoint j.nodeSpan := by
    refine (spans_pairwise hspans).imp fun h => ?_
    exact h _ (List.mem_cons_of_mem _ List.mem_cons_self) _ List.mem_cons_self
  have hflip : items.Pairwise (flip fun i j => i.dataSpan.Disjoint j.nodeSpan) := by
    refine (spans_pairwise hspans).imp fun h => ?_
    exact (h _ List.mem_cons_self _ (List.mem_cons_of_mem _ List.mem_cons_self)).symm
  exact List.Pairwise.forall_of_forall_of_flip hself hpair hflip hi hj

/-- The fields of a module do not meet the list node of any. -/
theorem payload_disjoint_cell (hi : i ∈ items) (hj : j ∈ items) :
    (payloadSpan i.node i.record.name.bytes.length).Disjoint ⟨j.node.toNat, 8⟩ := by
  have hself : ∀ i ∈ items,
      (payloadSpan i.node i.record.name.bytes.length).Disjoint ⟨i.node.toNat, 8⟩ :=
    fun i _ => (nodeSpan_disjoint_payload i.node i.record.name.bytes.length).symm
  have hnodes := (spans_pairwise hspans).imp fun {i j : Item} h =>
    (h _ List.mem_cons_self _ List.mem_cons_self : i.nodeSpan.Disjoint j.nodeSpan)
  have hpair : items.Pairwise fun i j =>
      (payloadSpan i.node i.record.name.bytes.length).Disjoint ⟨j.node.toNat, 8⟩ :=
    hnodes.imp fun {i j} h => h.mono (payload_inside i) (cell_inside j)
  have hflip : items.Pairwise (flip fun i j =>
      (payloadSpan i.node i.record.name.bytes.length).Disjoint ⟨j.node.toNat, 8⟩) :=
    hnodes.imp fun {i j} h => h.symm.mono (payload_inside j) (cell_inside i)
  exact List.Pairwise.forall_of_forall_of_flip hself hpair hflip hi hj

theorem cellsApart_of_spans (hfits : ∀ o ∈ listSpans l items, o.stop ≤ 2 ^ 32) :
    CellsApart l (items.map Item.node) where
  apart := by
    refine List.pairwise_cons.mpr ⟨fun c hc => ?_, ?_⟩
    · rw [List.map_map] at hc
      obtain ⟨i, hi, rfl⟩ := List.mem_map.mp hc
      exact (head_disjoint hspans hi List.mem_cons_self).mono ⟨le_rfl, le_rfl⟩ (cell_inside i)
    · rw [List.map_map, List.pairwise_map]
      refine (spans_pairwise hspans).imp fun {i j} h => ?_
      exact (h _ List.mem_cons_self _ List.mem_cons_self).mono (cell_inside i) (cell_inside j)
  fits c hc := by
    obtain ⟨o, ho, hin⟩ := cells_inside_spans hc
    exact hin.2.trans (hfits o ho)

/-- The modules depend on their spans only. -/
theorem ItemsAt.of_sameOn (h : ItemsAt m l items) (hfits : ∀ o ∈ listSpans l items, o.stop ≤ 2 ^ 32)
    (hsame : ∀ o ∈ listSpans l items, SameOn m m' o) : ItemsAt m' l items where
  list := by
    refine h.list.of_sameOn (cellsApart_of_spans hspans hfits) fun c hc => ?_
    obtain ⟨o, ho, hin⟩ := cells_inside_spans hc
    exact (hsame o ho).mono hin
  records i hi := (h.records i hi).of_sameOn (hfits _ (nodeSpan_mem hi))
    ((hsame _ (nodeSpan_mem hi)).mono (payload_inside i))
  data i hi := (h.data i hi).of_sameOn (hsame _ (dataSpan_mem hi)) (hfits _ (dataSpan_mem hi))

end

/-- **One more module** on the list. -/
theorem Added.itemsAt {mod : Word} {r : Module} {data : List Byte}
    (h : Added m m' l (items.map Item.node) mod r) (hitems : ItemsAt m l items)
    (hdata : BytesAt m r.address data)
    (hspans : (listSpans l (items ++ [⟨mod, r, data⟩])).Pairwise Span.Disjoint)
    (hfits : ∀ o ∈ listSpans l (items ++ [⟨mod, r, data⟩]), o.stop ≤ 2 ^ 32) :
    ItemsAt m' l (items ++ [⟨mod, r, data⟩]) := by
  let new : Item := ⟨mod, r, data⟩
  have hnew : new ∈ items ++ [new] := List.mem_append_right _ List.mem_cons_self
  have hold : ∀ i ∈ items, i ∈ items ++ [new] := fun i hi => List.mem_append_left _ hi
  -- what `add_module` changes: the new `module_t` and the cells of the list
  have hsame : ∀ o : Span, o.Disjoint new.nodeSpan → o.Disjoint ⟨l.toNat, 12⟩ →
      (∀ j ∈ items, o.Disjoint ⟨j.node.toNat, 8⟩) → SameOn m m' o := by
    intro o hnode hhead hcells
    refine h.frame.sameOn fun c hc => ?_
    rcases List.mem_cons.mp hc with rfl | hc
    · exact hnode
    · rcases mem_cells hc with rfl | ⟨j, hj, rfl⟩
      · exact hhead
      · exact hcells j hj
  have hdatas : ∀ i ∈ items ++ [new], SameOn m m' i.dataSpan := by
    intro i hi
    refine hsame _ (data_disjoint_node hspans hi hnew) ?_ fun j hj => ?_
    · exact (head_disjoint hspans hi (List.mem_cons_of_mem _ List.mem_cons_self)).symm
    · exact (data_disjoint_node hspans hi (hold j hj)).mono ⟨le_rfl, le_rfl⟩ (cell_inside j)
  constructor
  · rw [List.map_append]
    exact h.list
  · intro i hi
    rcases List.mem_append.mp hi with hi | hi
    · refine (hitems.records i hi).of_sameOn (hfits _ (nodeSpan_mem (hold i hi))) (hsame _ ?_ ?_ fun j hj => ?_)
      · have hall := List.pairwise_append.mp (spans_pairwise hspans)
        exact (hall.2.2 i hi new List.mem_cons_self _ List.mem_cons_self _ List.mem_cons_self).mono
          (payload_inside i) ⟨le_rfl, le_rfl⟩
      · exact ((head_disjoint hspans (hold i hi) List.mem_cons_self).symm).mono (payload_inside i)
          ⟨le_rfl, le_rfl⟩
      · exact payload_disjoint_cell hspans (hold i hi) (hold j hj)
    · obtain rfl := List.mem_singleton.mp hi
      exact h.record
  · intro i hi
    have hbytes : BytesAt m i.record.address i.data := by
      rcases List.mem_append.mp hi with hi | hi
      · exact hitems.data i hi
      · obtain rfl := List.mem_singleton.mp hi
        exact hdata
    exact hbytes.of_sameOn (hdatas i hi) (hfits _ (dataSpan_mem hi))

/-- `add_module` and the `id` after it, for a `module_t` apart from the list. -/
theorem addModule_items {mod bin len name : Word} {s : CStr} {data : List Byte} (exec : Word)
    (hitems : ItemsAt m l items) (hname : CStrAt m name s) (hdata : BytesAt m bin data)
    (hspans : (listSpans l (items ++ [⟨mod, ⟨s, execId exec, bin, len⟩, data⟩])).Pairwise Span.Disjoint)
    (hfits : ∀ o ∈ listSpans l (items ++ [⟨mod, ⟨s, execId exec, bin, len⟩, data⟩]), o.stop ≤ 2 ^ 32) :
    ∃ m₁ log₁ m₂ log₂, addModule l mod bin len name m = ⟨some (), m₁, log₁⟩ ∧
      setExecId exec mod m₁ = ⟨some (), m₂, log₂⟩ ∧
      ItemsAt m₂ l (items ++ [⟨mod, ⟨s, execId exec, bin, len⟩, data⟩]) ∧
      SameOutside m m₁ (nodeSpan mod s.bytes.length :: cells l (items.map Item.node)) ∧
      SameOutside m₁ m₂ [nodeSpan mod s.bytes.length] ∧
      (∀ w ∈ log₁, w.InsideOne (nodeSpan mod s.bytes.length :: cells l (items.map Item.node))) ∧
      ∀ w ∈ log₂, w.InsideOne [nodeSpan mod s.bytes.length] := by
  let new : Item := ⟨mod, ⟨s, execId exec, bin, len⟩, data⟩
  have hnew : new ∈ items ++ [new] := List.mem_append_right _ List.mem_cons_self
  have hsub : (listSpans l items).Sublist (listSpans l (items ++ [new])) := by
    rw [listSpans_append]
    exact List.sublist_append_left _ _
  have hc := cellsApart_of_spans (hspans.sublist hsub) fun o ho => hfits o (hsub.subset ho)
  have hc' := cellsApart_of_spans hspans hfits
  rw [List.map_append] at hc'
  have hfit : mod.toNat + (37 + s.bytes.length) ≤ 2 ^ 32 := hfits _ (nodeSpan_mem hnew)
  have hsep : ∀ c ∈ cells l (items.map Item.node), c.Disjoint (nodeSpan mod s.bytes.length) := by
    intro c hcell
    rcases mem_cells hcell with rfl | ⟨i, hi, rfl⟩
    · exact head_disjoint hspans hnew List.mem_cons_self
    · have hall := (List.pairwise_append.mp (spans_pairwise hspans)).2.2
      exact (hall i hi new List.mem_cons_self _ List.mem_cons_self _ List.mem_cons_self).mono
        (cell_inside i) ⟨le_rfl, le_rfl⟩
  obtain ⟨m₁, log₁, hrun₁, hadded₁, hlog₁⟩ := addModule_spec hitems.list hc hname hfit hsep bin len
  obtain ⟨m₂, log₂, hrun₂, hadded₂, hlog₂⟩ := setExecId_spec hadded₁ hfit hc' hsep
  refine ⟨m₁, log₁, m₂, log₂, hrun₁, hrun₂, hadded₂.itemsAt hitems hdata hspans hfits, hadded₁.frame,
    ?_, hlog₁, hlog₂⟩
  have hhonest : MemM.Honest (setExecId exec mod) := by
    unfold setExecId
    split_ifs
    · exact MemM.honest_pure _
    · exact MemM.honest_write _ _
  have haccounts := hhonest m₁
  rw [hrun₂] at haccounts
  exact haccounts.sameOutside hlog₂

end

end BBoot.Boot
