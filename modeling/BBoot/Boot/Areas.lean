import BBoot.Boot.NoClaim
import BBoot.Boot.Sam460

/-!
# The areas of memory the loader uses

The Kicklayout stands behind the archive, the image of `EXEC` has a fixed address,
the list and the modules stand one behind the other from `KICKLIST_ADDR` on, and the
stack of the hand-over is below `stack_top`. Each of these areas grows with the
archive, and `no_claim` compares nothing but the size of RAM, so two of them may meet.

Results:
* `Tiling.ascending`: ranges claimed one behind the other do not overlap.
* `ranges_apart_iff`: where no sum wraps, the ranges used are apart exactly when the
  areas are, and then the archive is as it was.
-/

namespace BBoot.Boot

open Zip Traced

/-- No sum in a claim wraps: the size, and the end of the range. -/
def Request.NoWrap (r : Request) (addr : Word) : Prop :=
  r.need ≤ r.size.toNat ∧ addr.toNat + r.size.toNat < 2 ^ 32

/-- The same for every range stored to. -/
def NoneWraps (log : List Event) : Prop := ∀ q ∈ stores log, q.1.NoWrap q.2

instance (r : Request) (addr : Word) : Decidable (r.NoWrap addr) :=
  inferInstanceAs (Decidable (_ ∧ _))

/-- The ranges of some stores. -/
def spansOf (qs : List (Request × Word)) : List Span := qs.map fun q => q.1.region q.2

/-- The areas: the archive with the Kicklayout, the image of `EXEC`, the list with the
    modules, and the stack. -/
def areas (archive stack : Span) (log : List Event) : List (List Span) :=
  [archive :: spansOf ((stores log).take 1), spansOf (execStores log), spansOf (listStores log),
    [stack]]

/-- Ranges of different areas do not overlap. -/
def AreasApart (archive stack : Span) (log : List Event) : Prop :=
  (areas archive stack log).Pairwise fun rs rs' => ∀ r ∈ rs, ∀ r' ∈ rs', r.Disjoint r'

/-- The archive, the stack and all ranges stored to do not overlap. -/
def AllApart (archive stack : Span) (log : List Event) : Prop :=
  (archive :: stack :: regions log).Pairwise Span.Disjoint

/-- The things stored, a module and its `module_t` each for itself. -/
def objectSpans (log : List Event) : List Span :=
  (stores log).flatMap fun q => (q.1.objects q.2).map Access.span

section

variable {archive stack : Span} {execAddr avail : Word} {past log : List Event}

theorem areasApart_iff : AreasApart archive stack log ↔
    (∀ r ∈ archive :: spansOf ((stores log).take 1),
      (∀ r' ∈ spansOf (execStores log), r.Disjoint r') ∧
      (∀ r' ∈ spansOf (listStores log), r.Disjoint r') ∧ r.Disjoint stack) ∧
    (∀ r ∈ spansOf (execStores log), (∀ r' ∈ spansOf (listStores log), r.Disjoint r') ∧
      r.Disjoint stack) ∧
    ∀ r ∈ spansOf (listStores log), r.Disjoint stack := by
  simp only [AreasApart, areas, List.pairwise_cons, List.mem_cons, List.not_mem_nil, or_false,
    forall_eq_or_imp, forall_eq, List.Pairwise.nil, and_true, IsEmpty.forall_iff, implies_true]
  grind

theorem NoneWraps.append_left (h : NoneWraps (past ++ log)) : NoneWraps past := fun q hq =>
  h q (by rw [stores_append]; exact List.mem_append_left _ hq)

theorem mem_spansOf_append {qs qs' : List (Request × Word)} {r : Span} (h : r ∈ spansOf qs) :
    r ∈ spansOf (qs ++ qs') := by
  rw [spansOf, List.map_append]
  exact List.mem_append_left _ h

/-- Later stores only add ranges to the areas. -/
theorem AreasApart.append_left (h : AreasApart archive stack (past ++ log)) :
    AreasApart archive stack past := by
  by_cases hnil : stores past = []
  · rw [areasApart_iff] at h ⊢
    have hexec : execStores past = [] := by rw [execStores, hnil]; rfl
    have hlist : listStores past = [] := by rw [listStores, hnil]; rfl
    rw [hexec, hlist, hnil]
    refine ⟨fun r hr => ⟨by simp [spansOf], by simp [spansOf], ?_⟩, by simp [spansOf], by simp [spansOf]⟩
    obtain rfl : r = archive := by simpa [spansOf] using hr
    exact (h.1 r List.mem_cons_self).2.2
  · rw [areasApart_iff, execStores_append hnil, listStores_append hnil, stores_append,
      List.take_append_of_le_length (List.length_pos_iff.mpr hnil)] at h
    rw [areasApart_iff]
    obtain ⟨htext, hexec, hlist⟩ := h
    refine ⟨fun r hr => ⟨fun r' hr' => ?_, fun r' hr' => ?_, (htext r hr).2.2⟩, fun r hr => ?_,
      fun r hr => hlist r (mem_spansOf_append hr)⟩
    · exact (htext r hr).1 r' (mem_spansOf_append hr')
    · exact (htext r hr).2.1 r' (mem_spansOf_append hr')
    · have hr := hexec r (mem_spansOf_append hr)
      exact ⟨fun r' hr' => hr.1 r' (mem_spansOf_append hr'), hr.2⟩

/-- **One behind the other** the ranges ascend; by induction on the claims. -/
theorem Tiling.ascending {a e : Word} {qs : List (Request × Word)} (h : Tiling a qs e)
    (hwrap : ∀ q ∈ qs, q.1.NoWrap q.2) :
    a.toNat ≤ e.toNat ∧ Span.Ascending a.toNat e.toNat (spansOf qs) := by
  induction h with
  | nil => exact ⟨le_rfl, Span.Ascending.nil _ _⟩
  | @snoc qs e r h ih =>
    obtain ⟨hle, hbounds, hpairs⟩ := ih fun q hq => hwrap q (List.mem_append_left _ hq)
    obtain ⟨hneed, hend⟩ := hwrap (r, e) (List.mem_append_right _ (List.mem_singleton_self _))
    dsimp only at hneed hend
    have hto : (e + r.size).toNat = e.toNat + r.size.toNat := by
      rw [BitVec.toNat_add, Nat.mod_eq_of_lt hend]
    have hregion : (r.region e).start = e.toNat ∧ (r.region e).stop = e.toNat + r.need := ⟨rfl, rfl⟩
    have hspans : spansOf (qs ++ [(r, e)]) = spansOf qs ++ [r.region e] := by
      rw [spansOf, List.map_append]
      rfl
    rw [hspans]
    refine ⟨by omega, fun s hs => ?_, List.pairwise_append.mpr ⟨hpairs, List.pairwise_singleton .., ?_⟩⟩
    · rcases List.mem_append.mp hs with hs | hs
      · have := hbounds s hs
        omega
      · obtain rfl := List.mem_singleton.mp hs
        omega
    · intro s hs t ht
      obtain rfl := List.mem_singleton.mp ht
      have := (hbounds s hs).2
      omega

/-- A list is pairwise related if its two parts are and they are related to each other. -/
theorem pairwise_of_parts {α : Type} {R : α → α → Prop} {p : α → Bool} {l : List α}
    (h : (l.filter p).Pairwise R) (h' : (l.filter fun a => !p a).Pairwise R)
    (hmix : ∀ a ∈ l.filter p, ∀ b ∈ l.filter fun a => !p a, R a b ∧ R b a) : l.Pairwise R := by
  rw [List.pairwise_filter] at h h'
  refine (h.and h').imp_of_mem fun {a b} ha hb hab => ?_
  cases hpa : p a <;> cases hpb : p b
  · exact hab.2 (by rw [hpa]; rfl) (by rw [hpb]; rfl)
  · exact (hmix b (List.mem_filter.mpr ⟨hb, hpb⟩) a (List.mem_filter.mpr ⟨ha, by rw [hpa]; rfl⟩)).2
  · exact (hmix a (List.mem_filter.mpr ⟨ha, hpa⟩) b (List.mem_filter.mpr ⟨hb, by rw [hpb]; rfl⟩)).1
  · exact hab.1 hpa hpb

/-- Inside an area the ranges do not overlap, so all are apart if the areas are. -/
theorem Tiled.rangesApart (h : Tiled execAddr log avail) (hwrap : NoneWraps log)
    (hareas : AreasApart archive stack log) : RangesApart log := by
  obtain ⟨htext, hexec, -⟩ := areasApart_iff.mp hareas
  have hmem : ∀ q ∈ listStores log, q ∈ stores log := fun q hq =>
    List.mem_of_mem_tail (List.mem_filter.mp hq).1
  have hlist := (h.list.ascending fun q hq => hwrap q (hmem q hq)).2.pairwise_disjoint
  have hone : (spansOf (execStores log)).Pairwise Span.Disjoint := by
    rcases h.exec with hnil | ⟨clen, hone⟩
    · rw [hnil]
      exact .nil
    · rw [hone]
      exact List.pairwise_singleton ..
  unfold spansOf at hlist hone
  rw [List.pairwise_map] at hlist hone
  have htail : (stores log).tail.Pairwise fun q q' =>
      (q.1.region q.2).Disjoint (q'.1.region q'.2) := by
    refine pairwise_of_parts hone hlist fun q hq q' hq' => ?_
    have := (hexec _ (List.mem_map_of_mem hq)).1 _ (List.mem_map_of_mem hq')
    exact ⟨this, this.symm⟩
  obtain ⟨n, k, hhead⟩ := h.text
  obtain ⟨tail, hstores⟩ := List.head?_eq_some_iff.mp hhead
  have hfirst : (Request.text n).region k ∈ archive :: spansOf ((stores log).take 1) := by
    rw [hstores]
    exact List.mem_cons_of_mem _ List.mem_cons_self
  unfold RangesApart regions
  rw [List.pairwise_map, hstores]
  rw [hstores, List.tail_cons] at htail
  refine List.pairwise_cons.mpr ⟨fun q hq => ?_, htail⟩
  have hq' : q ∈ (stores log).tail := by rwa [hstores]
  cases hq1 : q.1.isExec with
  | true => exact (htext _ hfirst).1 _ (List.mem_map_of_mem (List.mem_filter.mpr ⟨hq', hq1⟩))
  | false =>
    exact (htext _ hfirst).2.1 _ (List.mem_map_of_mem (List.mem_filter.mpr ⟨hq', by rw [hq1]; rfl⟩))

/-- Every range belongs to an area. -/
theorem mem_regions_iff {r : Span} : r ∈ regions log ↔ r ∈ spansOf ((stores log).take 1) ∨
    r ∈ spansOf (execStores log) ∨ r ∈ spansOf (listStores log) := by
  have hsplit : ∀ q, q ∈ stores log ↔ q ∈ (stores log).take 1 ∨ q ∈ execStores log ∨
      q ∈ listStores log := by
    intro q
    have htail : q ∈ (stores log).tail ↔ q ∈ execStores log ∨ q ∈ listStores log := by
      rw [execStores, listStores, List.mem_filter, List.mem_filter, ← and_or_left]
      cases q.1.isExec <;> simp
    rw [← htail]
    cases stores log <;> simp
  simp only [regions, spansOf, List.mem_map, hsplit]
  grind

/-- The archive ends where the text starts. -/
theorem archive_disjoint_text {n k : Word} (hhead : (stores log).head? = some (.text n, k))
    (hk : archive.stop = k.toNat) : ∀ r ∈ spansOf ((stores log).take 1), archive.Disjoint r := by
  obtain ⟨tail, hstores⟩ := List.head?_eq_some_iff.mp hhead
  intro r hr
  rw [hstores] at hr
  obtain rfl := List.mem_singleton.mp hr
  exact Span.Disjoint.of_stop_le hk.le

theorem AreasApart.allApart (h : AreasApart archive stack log) (hapart : RangesApart log)
    (htext : ∀ r ∈ spansOf ((stores log).take 1), archive.Disjoint r) :
    AllApart archive stack log := by
  obtain ⟨hfirst, hexec, hlist⟩ := areasApart_iff.mp h
  obtain ⟨hae, hal, has⟩ := hfirst archive List.mem_cons_self
  refine List.pairwise_cons.mpr ⟨fun r hr => ?_, List.pairwise_cons.mpr ⟨fun r hr => ?_, hapart⟩⟩
  · rcases List.mem_cons.mp hr with rfl | hr
    · exact has
    rcases mem_regions_iff.mp hr with hr | hr | hr
    · exact htext r hr
    · exact hae r hr
    · exact hal r hr
  · rcases mem_regions_iff.mp hr with hr | hr | hr
    · exact (hfirst r (List.mem_cons_of_mem _ hr)).2.2.symm
    · exact (hexec r hr).2.symm
    · exact (hlist r hr).symm

theorem AllApart.areasApart (h : AllApart archive stack log) : AreasApart archive stack log := by
  obtain ⟨harchive, h⟩ := List.pairwise_cons.mp h
  obtain ⟨hstack, hregions⟩ := List.pairwise_cons.mp h
  have : Std.Symm fun q q' : Request × Word => (q.1.region q.2).Disjoint (q'.1.region q'.2) :=
    ⟨fun _ _ h => h.symm⟩
  rw [regions, List.pairwise_map] at hregions
  have hmem (q : Request × Word) (hq : q ∈ execStores log ∨ q ∈ listStores log) :
      q ∈ (stores log).tail := by
    rcases hq with hq | hq
    · exact (List.mem_filter.mp hq).1
    · exact (List.mem_filter.mp hq).1
  have hspan {qs : List (Request × Word)} {r : Span} (hqs : ∀ q ∈ qs, q ∈ stores log)
      (hr : r ∈ spansOf qs) : r ∈ regions log := by
    obtain ⟨q, hq, rfl⟩ := List.mem_map.mp hr
    exact List.mem_map_of_mem (hqs q hq)
  have hexec : ∀ q ∈ execStores log, q ∈ stores log := fun q hq =>
    List.mem_of_mem_tail (hmem q (Or.inl hq))
  have hlist : ∀ q ∈ listStores log, q ∈ stores log := fun q hq =>
    List.mem_of_mem_tail (hmem q (Or.inr hq))
  -- the text is the first range
  have hfirst : ∀ r ∈ spansOf ((stores log).take 1), ∀ q ∈ (stores log).tail,
      r.Disjoint (q.1.region q.2) := by
    intro r hr q hq
    cases hs : stores log with
    | nil => rw [hs] at hq; exact absurd hq List.not_mem_nil
    | cons q₀ qs =>
      rw [hs] at hr hq hregions
      obtain rfl := List.mem_singleton.mp hr
      exact (List.pairwise_cons.mp hregions).1 q hq
  have hstart (r : Span) (hr : r ∈ archive :: spansOf ((stores log).take 1)) :
      (∀ q ∈ (stores log).tail, r.Disjoint (q.1.region q.2)) ∧ r.Disjoint stack := by
    rcases List.mem_cons.mp hr with rfl | hr
    · refine ⟨fun q hq => harchive _ (List.mem_cons_of_mem _ ?_), harchive _ List.mem_cons_self⟩
      exact List.mem_map_of_mem (f := fun q => q.1.region q.2) (List.mem_of_mem_tail hq)
    · exact ⟨hfirst r hr, (hstack r (hspan (fun q => List.mem_of_mem_take) hr)).symm⟩
  rw [areasApart_iff]
  refine ⟨fun r hr => ⟨fun r' hr' => ?_, fun r' hr' => ?_, (hstart r hr).2⟩, fun r hr =>
    ⟨fun r' hr' => ?_, (hstack r (hspan hexec hr)).symm⟩, fun r hr => (hstack r (hspan hlist hr)).symm⟩
  · obtain ⟨q, hq, rfl⟩ := List.mem_map.mp hr'
    exact (hstart r hr).1 q (hmem q (Or.inl hq))
  · obtain ⟨q, hq, rfl⟩ := List.mem_map.mp hr'
    exact (hstart r hr).1 q (hmem q (Or.inr hq))
  · obtain ⟨q, hq, rfl⟩ := List.mem_map.mp hr
    obtain ⟨q', hq', rfl⟩ := List.mem_map.mp hr'
    refine hregions.forall (hexec q hq) (hlist q' hq') ?_
    rintro rfl
    have h1 := (List.mem_filter.mp hq).2
    have h2 := (List.mem_filter.mp hq').2
    simp [h1] at h2

theorem NoneWraps.separate (h : NoneWraps log) (hapart : RangesApart log) : Separate log where
  apart := hapart
  fits r hr := by
    obtain ⟨q, hq, rfl⟩ := List.mem_map.mp hr
    obtain ⟨hneed, hend⟩ := h q hq
    show q.2.toNat + q.1.need ≤ 2 ^ 32
    omega

/-- A request that does not wrap is placed well, whatever RAM there is up to its end. -/
theorem Request.NoWrap.placed {r : Request} {addr : Word} (h : r.NoWrap addr) :
    r.Placed 0xffffffff addr := by
  refine (Request.placed_iff_fits _ _ _).mpr ⟨h.1, ?_⟩
  have := h.1
  have := h.2
  have : (0xffffffff : Word).toNat = 2 ^ 32 - 1 := rfl
  omega

/-- What is stored for a request lies inside its range. -/
theorem Request.NoWrap.inside {r : Request} {addr : Word} (h : r.NoWrap addr) :
    ∀ o ∈ r.objects addr, o.span.Inside (r.region addr) := by
  intro o ho
  cases r with
  | module clen nlen =>
    obtain ⟨hneed, hend⟩ := h
    rw [Request.need] at hneed
    have halign := le_alignUp clen.toNat (d := 4) (by omega)
    have hmod : (addr + roundUp clen 4).toNat = addr.toNat + alignUp clen.toNat 4 := by
      rw [BitVec.toNat_add, Request.roundUp4_toNat]
      omega
    simp only [Request.objects, List.mem_cons, List.not_mem_nil, or_false] at ho
    unfold Span.Inside Span.stop Request.region Request.need
    rcases ho with rfl | rfl
    · unfold Access.span
      dsimp only
      omega
    · unfold Access.span
      dsimp only
      omega
  | _ =>
    obtain rfl := List.mem_singleton.mp ho
    exact ⟨le_rfl, le_rfl⟩

/-- A module and its `module_t` are apart too. -/
theorem AllApart.objects (h : AllApart archive stack log) (hwrap : NoneWraps log) :
    (archive :: stack :: objectSpans log).Pairwise Span.Disjoint := by
  obtain ⟨harchive, h⟩ := List.pairwise_cons.mp h
  obtain ⟨hstack, hregions⟩ := List.pairwise_cons.mp h
  have hin : ∀ o ∈ objectSpans log, ∃ r ∈ regions log, o.Inside r := by
    intro o ho
    obtain ⟨q, hq, ho⟩ := List.mem_flatMap.mp ho
    obtain ⟨a, ha, rfl⟩ := List.mem_map.mp ho
    exact ⟨_, List.mem_map_of_mem hq, (hwrap q hq).inside a ha⟩
  refine List.pairwise_cons.mpr ⟨fun o ho => ?_, List.pairwise_cons.mpr ⟨fun o ho => ?_, ?_⟩⟩
  · rcases List.mem_cons.mp ho with rfl | ho
    · exact harchive _ List.mem_cons_self
    · obtain ⟨r, hr, hor⟩ := hin o ho
      exact (harchive r (List.mem_cons_of_mem _ hr)).mono ⟨le_rfl, le_rfl⟩ hor
  · obtain ⟨r, hr, hor⟩ := hin o ho
    exact (hstack r hr).mono ⟨le_rfl, le_rfl⟩ hor
  · rw [objectSpans, List.pairwise_flatMap]
    refine ⟨fun q hq => List.pairwise_map.mpr (hwrap q hq).placed.apart, ?_⟩
    rw [regions, List.pairwise_map] at hregions
    refine hregions.imp_of_mem fun {q q'} hq hq' hqq o ho o' ho' => ?_
    obtain ⟨a, ha, rfl⟩ := List.mem_map.mp ho
    obtain ⟨a', ha', rfl⟩ := List.mem_map.mp ho'
    exact hqq.mono ((hwrap q hq).inside a ha) ((hwrap q' hq').inside a' ha')

end

/-- The boards that use `no_claim`. -/
inductive Board
  | amigaone
  | sam460
deriving DecidableEq, Repr

/-- The `n` bytes below `brd.stack_top`, which amigaone does not set. -/
def Board.stack (memsize : Word) (n : ℕ) : Board → Span
  | amigaone => ⟨0, 0⟩
  | sam460 => ⟨(Sam460.stackTop memsize).toNat - n, n⟩

/-- **Where no sum wraps**, the archive, the stack and the ranges stored to by a call that
    returns a list are apart exactly when the areas are. All that is stored is then apart,
    and the archive is as it was. -/
theorem ranges_apart_iff {puff : Puff} (hpuff : PuffBounded puff) (board : Board) (memsize : Word)
    (n fuel : ℕ) (zipdata ziplen : Word) {config : ℤ} (hconfig : 1 ≤ config) (s : Machine)
    {len : Word} (hlen : (archiveLen s.mem zipdata ziplen).val = some len)
    (hend : zipdata.toNat + len.toNat < 2 ^ 32) {run : Outcome Machine Event Kick}
    (hrun : bootAosZipkick (noClaim memsize) puff fuel zipdata ziplen config s = run) {k : Kick}
    (hret : run.val = some k) (hk : k.kicklist ≠ 0) (hwrap : NoneWraps run.log) :
    (AllApart ⟨zipdata.toNat, len.toNat⟩ (board.stack memsize n) run.log ↔
        AreasApart ⟨zipdata.toNat, len.toNat⟩ (board.stack memsize n) run.log) ∧
      (AreasApart ⟨zipdata.toNat, len.toNat⟩ (board.stack memsize n) run.log →
        (⟨zipdata.toNat, len.toNat⟩ :: board.stack memsize n :: objectSpans run.log).Pairwise
            Span.Disjoint ∧
          WritesInside run.log ∧ SameOn s.mem run.state.mem ⟨zipdata.toNat, len.toNat⟩) := by
  obtain ⟨c, rfl⟩ := exists_label hconfig
  generalize harchive : Span.mk zipdata.toNat len.toNat = archive
  generalize board.stack memsize n = stack
  have hfollows (hareas : AreasApart archive stack run.log) :
      AllApart archive stack run.log ∧ ∃ z₀, Tracks s.mem z₀ run.state run.log := by
    have hclosed : PrefixClosed fun log => NoneWraps log ∧ AreasApart archive stack log :=
      fun past log h => ⟨h.1.append_left, h.2.append_left⟩
    have env (z₀ : ZipT) : Setting (fun log => NoneWraps log ∧ AreasApart archive stack log)
        (noClaim memsize) puff s.mem z₀ .any :=
      noClaim_setting hpuff hclosed fun htiled h => h.1.separate (htiled.rangesApart h.1 h.2)
    have hends := bootAosZipkick_ends c (fun _ z₀ _ => env z₀) (by rw [hrun]; exact ⟨hwrap, hareas⟩)
    rw [hrun, hret] at hends
    rcases hends with ⟨ls, -, hnull, -⟩ | ⟨len', z₀, hopened, hkicked⟩
    · exact absurd (congrArg Kick.kicklist (Option.some.inj hnull)) hk
    obtain rfl : len = len' := Option.some.inj (hlen.symm.trans hopened.length)
    cases hkicked with
    | noLayout _ _ _ => exact absurd rfl hk
    | long _ _ hnull _ _ =>
      rcases hnull with hnull | ⟨hnone, -⟩
      · exact absurd (congrArg Kick.kicklist (Option.some.inj hnull)) hk
      · exact absurd hnone (by simp)
    | parsed _ _ _ hhead hbooted =>
      obtain ⟨htracks, avail, htiled⟩ := hbooted.tracked
      refine ⟨hareas.allApart (htiled.rangesApart hwrap hareas) ?_, z₀, htracks⟩
      refine archive_disjoint_text hhead ?_
      rw [← harchive, BitVec.toNat_add, Nat.mod_eq_of_lt hend]
      rfl
  refine ⟨⟨AllApart.areasApart, fun h => (hfollows h).1⟩, fun h => ?_⟩
  obtain ⟨hall, z₀, htracks⟩ := hfollows h
  refine ⟨hall.objects hwrap, htracks.writes, htracks.mem.sameOn fun r hr => ?_⟩
  exact (List.pairwise_cons.mp hall).1 r (List.mem_cons_of_mem _ hr)

/-- A small archive where the firmware usually puts it. -/
theorem kickArchive_apart :
    AllApart ⟨0x600000, kickArchive.length⟩ (Board.sam460.stack 0x20000000 0x1000)
      (bootAosZipkick (noClaim 0x20000000) puffStored 8 0x600000
        (BitVec.ofNat 32 kickArchive.length) 1 (machineOf kickArchive)).log :=
  have hlen : (BitVec.ofNat 32 kickArchive.length).toNat = kickArchive.length := by decide +kernel
  hlen ▸ (ranges_apart_iff puffStored_bounded .sam460 0x20000000 0x1000 8 0x600000 _ (by decide) _
    (by decide +kernel : _ = some (BitVec.ofNat 32 kickArchive.length)) (by decide +kernel) rfl
    (by decide +kernel : _ = some ⟨kicklistAddr, 0xec0008c⟩) (by decide)
    (by rw [NoneWraps]; decide +kernel)).1.mpr (by rw [AreasApart]; decide +kernel)

/-- An archive with a Kicklayout of 14 bytes and a file. -/
def execArchive : List Byte :=
  archive [storedLayout (labelText ++ ascii ['\n', 'E', 'X', 'E', 'C', ' ', 'k']) (by decide),
    storedFile ⟨ascii ['k'], by decide⟩ [5, 9] (by decide) (by decide) (by decide)] []

/-- The text behind that archive at `0xffff09` ends at `0x1000001`, and the image of `EXEC` is
    stored over its last byte. -/
theorem execImage_meets_text :
    (bootAosZipkick (noClaim 0x20000000) puffStored 8 0xffff09
        (BitVec.ofNat 32 execArchive.length) 1 ⟨memOf 0xffff09 execArchive, ⟨0, 0, 0, 0⟩, 0⟩).val =
          some ⟨kicklistAddr, 0xec0004c⟩ ∧
      ¬ (⟨0xffff09, execArchive.length⟩ :: Board.amigaone.stack 0x20000000 0 ::
        objectSpans (bootAosZipkick (noClaim 0x20000000) puffStored 8 0xffff09
          (BitVec.ofNat 32 execArchive.length) 1
          ⟨memOf 0xffff09 execArchive, ⟨0, 0, 0, 0⟩, 0⟩).log).Pairwise Span.Disjoint := by
  decide +kernel

end BBoot.Boot
