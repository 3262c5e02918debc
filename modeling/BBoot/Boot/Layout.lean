import BBoot.Boot.Loading
import BBoot.Boot.Sections

/-!
# The loop over the Kicklayout

The loop of `boot_aos_zipkick` on a text whose lines are `lines` (`LinesOf`). It
looks for a label `n` times and then loads the lines of that section, one after
the other (`Phase`); `pathsAhead` are the paths that it has still to load.

Results:
* `layoutLoop_ensures`: the files of the section are loaded, or `NULL` is
  returned for a reason (`Refusal`).
-/

namespace BBoot.Boot

open Zip Traced

/-! ## What the loop is to do -/

/-- The paths that the lines name when the modules `items` are loaded. -/
def nextPaths (items : List Item) (lines : List (List Byte)) : Option (List (List Byte)) :=
  match items with
  | [] => sectionPaths lines
  | _ :: _ => modulePaths lines

/-- The paths to be loaded when `n` labels are still to come. -/
def pathsAhead (n : ℕ) (items : List Item) (lines : List (List Byte)) :
    Option (List (List Byte)) := (sectionLines n lines).bind (nextPaths items)

/-- `EXEC` has an address of its own, and modules are put where there is room. -/
def nextData (execAddr : Word) (items : List Item) : Word :=
  match items with
  | [] => execAddr
  | _ :: _ => 0

/-- The files at `paths` were loaded as `items`, the first one at `data`. -/
inductive Loaded (ans : Answers) : Word → List CStr → List Item → Prop
  | nil {data : Word} : Loaded ans data [] []
  | cons {data : Word} {path : CStr} {paths : List CStr} {item : Item} {items : List Item} :
      LoadDone ans path data item → Loaded ans 0 paths items →
      Loaded ans data (path :: paths) (item :: items)

/-- Why `NULL` is returned: a line has no newline before the next NUL, a claim is refused,
    or the section is not valid or one of its files is not loaded. -/
inductive Refusal (ans : Answers) (goal : Option (List (List Byte))) (broken : Bool)
    (log : List Event) : Prop
  | broken : broken = true → Refusal ans goal broken log
  | refused {r : Request} {addr : Word} : .claim r addr 0 ∈ log → Refusal ans goal broken log
  | failed : (∀ paths : List CStr, goal = some (paths.map CStr.bytes) →
      ∃ path ∈ paths, LoadFailed ans path log) → Refusal ans goal broken log

section

variable {ans : Answers} {execAddr : Word} {items : List Item} {item : Item} {path : CStr}
  {goal : Option (List (List Byte))} {broken : Bool} {log : List Event} {line : List Byte}
  {lines : List (List Byte)} {n : ℕ}

theorem nextPaths_nil_of_ne (h : items ≠ []) : nextPaths items [] = some [] := by
  cases items with
  | nil => exact absurd rfl h
  | cons i is => rfl

theorem nextData_of_ne (h : items ≠ []) : nextData execAddr items = 0 := by
  cases items with
  | nil => exact absurd rfl h
  | cons i is => rfl

theorem nextPaths_of_ne (h : items ≠ []) (lines : List (List Byte)) :
    nextPaths items lines = modulePaths lines := by
  cases items with
  | nil => exact absurd rfl h
  | cons i is => rfl

theorem pathsAhead_zero_label (hlabel : isLabel line = true) :
    pathsAhead 0 items (line :: lines) = nextPaths items [] := by
  rw [pathsAhead, sectionLines, List.takeWhile_cons, hlabel]
  rfl

theorem pathsAhead_zero (hlabel : isLabel line = false) :
    pathsAhead 0 items (line :: lines) =
      nextPaths items (line :: lines.takeWhile fun line => !isLabel line) := by
  rw [pathsAhead, sectionLines, List.takeWhile_cons, hlabel]
  rfl

theorem pathsAhead_succ_label (hlabel : isLabel line = true) :
    pathsAhead (n + 1) items (line :: lines) = pathsAhead n items lines := by
  rw [pathsAhead, sectionLines, if_pos hlabel]
  rfl

theorem pathsAhead_succ (hlabel : isLabel line = false) :
    pathsAhead (n + 1) items (line :: lines) = pathsAhead (n + 1) items lines := by
  rw [pathsAhead, sectionLines, if_neg (by simp [hlabel])]
  rfl

/-- A file that was not loaded is one of the paths. -/
theorem Refusal.first {paths : Option (List (List Byte))}
    (hgoal : goal = paths.map (path.bytes :: ·)) (h : LoadFailed ans path log) :
    Refusal ans goal broken log := by
  refine .failed fun ps hps => ?_
  rw [hgoal] at hps
  obtain ⟨qs, -, hqs⟩ := Option.map_eq_some_iff.mp hps
  cases ps with
  | nil => exact absurd hqs (by simp)
  | cons p ps =>
    obtain rfl : path = p := CStr.ext_iff'.mpr (List.cons.inj hqs).1
    exact ⟨_, List.mem_cons_self, h⟩

/-- What fails later fails the whole. -/
theorem Refusal.later {paths : Option (List (List Byte))}
    (hgoal : goal = paths.map (path.bytes :: ·)) (h : Refusal ans paths broken log) :
    Refusal ans goal broken log := by
  cases h with
  | broken h => exact .broken h
  | refused h => exact .refused h
  | failed h =>
    refine .failed fun ps hps => ?_
    rw [hgoal] at hps
    obtain ⟨qs, hqs, heq⟩ := Option.map_eq_some_iff.mp hps
    cases ps with
    | nil => exact absurd heq (by simp)
    | cons p ps =>
      obtain ⟨q, hq, hfail⟩ := h ps (by rw [hqs, (List.cons.inj heq).2])
      exact ⟨q, List.mem_cons_of_mem _ hq, hfail⟩

end

/-! ## The state of the loop -/

/-- The text still to be parsed: `rest` at `p` with a NUL behind it, up to the end. -/
structure Remains (m : Mem) (text : Span) (p : Word) (rest : List Byte) : Prop where
  bytes : BytesAt m p (rest ++ [0])
  start : text.start ≤ p.toNat
  stop : p.toNat + (rest.length + 1) = text.stop
  last : ∀ b ∈ rest.getLast?, b = 0x0a

/-- The loop looks for `n + 1` more labels, or it loads the section behind the last one. -/
inductive Phase (execAddr : Word) (config : ℤ) (m₀ : Mem) (z₀ : ZipT) (text : Span) :
    ℕ → List Item → Layout → Machine → List Event → Prop
  | searching {n : ℕ} {st : Layout} {s : Machine} {past : List Event} :
      st.c + (n + 1 : ℕ) = config → st.kicklist = 0 → st.avail = kicklistAddr →
      Tracks m₀ z₀ s past → Tiled execAddr past kicklistAddr → execStores past = [] →
      Owned past [text] → Phase execAddr config m₀ z₀ text (n + 1) [] st s past
  | loading {items : List Item} {st : Layout} {s : Machine} {past : List Event} :
      st.c = config → st.kicklist = kicklistAddr →
      Running execAddr m₀ z₀ text kicklistAddr st.avail items s past →
      Phase execAddr config m₀ z₀ text 0 items st s past

/-- How a run ends: not at all if `short`, with `NULL` for a reason, or with the list, on
    which the files at the paths `goal` now follow the modules `items`. -/
inductive Booted (execAddr : Word) (m₀ : Mem) (z₀ : ZipT) (ans : Answers) (text : Span)
    (goal : Option (List (List Byte))) (broken : Bool) (short : Prop) (items : List Item) :
    Option Kick → Machine → List Event → Prop
  | unfinished {s : Machine} {log : List Event} {avail : Word} : short → Tracks m₀ z₀ s log →
      Tiled execAddr log avail → Booted execAddr m₀ z₀ ans text goal broken short items none s log
  | null {s : Machine} {log : List Event} {avail : Word} : Refusal ans goal broken log →
      Tracks m₀ z₀ s log → Tiled execAddr log avail →
      Booted execAddr m₀ z₀ ans text goal broken short items (some .null) s log
  | list {s : Machine} {log : List Event} {avail : Word} {paths : List CStr} {new : List Item} :
      goal = some (paths.map CStr.bytes) → Loaded ans (nextData execAddr items) paths new →
      Running execAddr m₀ z₀ text kicklistAddr avail (items ++ new) s log → items ++ new ≠ [] →
      Booted execAddr m₀ z₀ ans text goal broken short items (some ⟨kicklistAddr, avail⟩) s log

section

variable {execAddr : Word} {config : ℤ} {m₀ : Mem} {z₀ : ZipT} {ans : Answers} {text : Span}
  {n : ℕ} {items : List Item} {st st' : Layout} {s s' : Machine} {past log : List Event}
  {goal : Option (List (List Byte))} {broken : Bool} {short : Prop}

theorem Phase.tracks (h : Phase execAddr config m₀ z₀ text n items st s past) :
    Tracks m₀ z₀ s past := by
  cases h with
  | searching _ _ _ h _ _ _ => exact h
  | loading _ _ h => exact h.tracks

theorem Phase.tiled (h : Phase execAddr config m₀ z₀ text n items st s past) :
    Tiled execAddr past st.avail := by
  cases h with
  | searching _ _ havail _ h _ _ => exact havail ▸ h
  | loading _ _ h => exact h.tiled

theorem Phase.owned (h : Phase execAddr config m₀ z₀ text n items st s past) :
    Owned past [text] := by
  cases h with
  | searching _ _ _ _ _ _ h => exact h
  | loading _ _ h => exact h.owned.sublist (List.singleton_sublist.mpr List.mem_cons_self)

/-- The current line is not part of what is kept. -/
theorem Phase.move (h : Phase execAddr config m₀ z₀ text n items st s past) (p : Word) :
    Phase execAddr config m₀ z₀ text n items { st with p := p } s past := by
  cases h with
  | searching hc hk ha ht htl he ho => exact .searching hc hk ha ht htl he ho
  | loading hc hk h => exact .loading hc hk h

/-- Writes inside the text. -/
theorem Phase.onText (h : Phase execAddr config m₀ z₀ text n items st s past)
    (hsep : Separate past) {m : Mem} {ws : List Access} {o : Span} (ho : o.Inside text)
    (hsame : SameOutside s.mem m [o]) (hws : ∀ w ∈ ws, w.InsideOne [o]) :
    Phase execAddr config m₀ z₀ text n items st { s with mem := m }
      (past ++ ws.map Event.write) := by
  obtain ⟨r, hr, hin⟩ := h.owned.inside text List.mem_cons_self
  have htracks : Tracks m₀ z₀ { s with mem := m } (past ++ ws.map Event.write) := by
    refine h.tracks.onMem (fun w hw _ => hws w hw) hsame fun r' hr' => ?_
    obtain rfl := List.mem_singleton.mp hr'
    exact ⟨r, hr, hin.1.trans ho.1, ho.2.trans hin.2⟩
  have hstores := stores_writes ws
  cases h with
  | searching hc hk ha _ htiled hexec howned =>
    refine .searching hc hk ha htracks (htiled.silent hstores) ?_ (howned.append _)
    rwa [execStores_silent htiled.stores_ne_nil hstores]
  | loading hc hk hrun =>
    refine .loading hc hk ⟨htracks, hrun.tiled.silent hstores, fun hnil => ?_,
      hrun.owned.append _, hrun.nodes, ?_⟩
    · rw [execStores_silent hrun.tiled.stores_ne_nil hstores]
      exact hrun.fresh hnil
    · -- the modules are apart from the text
      obtain ⟨htext, hspans⟩ := List.pairwise_cons.mp hrun.owned.apart
      refine hrun.items.of_sameOn hspans
        (fun o' ho' => hrun.owned.fits hsep (List.mem_cons_of_mem _ ho')) fun o' ho' => ?_
      refine hsame.sameOn (List.forall_mem_singleton.mpr ?_)
      exact (htext o' ho').symm.mono ⟨le_rfl, le_rfl⟩ ho

/-- One more file in front. -/
theorem Booted.cons {path : CStr} {item : Item} {paths : Option (List (List Byte))}
    (hgoal : goal = paths.map (path.bytes :: ·))
    (hdone : LoadDone ans path (nextData execAddr items) item) {v : Option Kick}
    (h : Booted execAddr m₀ z₀ ans text paths broken short (items ++ [item]) v s log) :
    Booted execAddr m₀ z₀ ans text goal broken short items v s log := by
  cases h with
  | unfinished hshort htracks htiled => exact .unfinished hshort htracks htiled
  | null hwhy htracks htiled => exact .null (hwhy.later hgoal) htracks htiled
  | list hpaths hloaded hrun hne =>
    rw [nextData_of_ne (List.append_ne_nil_of_right_ne_nil _ (List.cons_ne_nil _ _))] at hloaded
    rw [List.append_assoc] at hrun hne
    refine .list ?_ (.cons hdone hloaded) hrun hne
    rw [hgoal, hpaths]
    rfl

theorem Booted.mono {short' : Prop} (hshort : short → short') {v : Option Kick}
    (h : Booted execAddr m₀ z₀ ans text goal broken short items v s log) :
    Booted execAddr m₀ z₀ ans text goal broken short' items v s log := by
  cases h with
  | unfinished h htracks htiled => exact .unfinished (hshort h) htracks htiled
  | null hwhy htracks htiled => exact .null hwhy htracks htiled
  | list hpaths hloaded hrun hne => exact .list hpaths hloaded hrun hne

end

/-! ## The steps -/

section

variable {A : List Event → Prop} {b : Brd} {puff : Puff} {config : ℤ} {m₀ : Mem} {z₀ : ZipT}
  {ans : Answers} {text : Span} {n : ℕ} {items : List Item} {st : Layout} {s : Machine}
  {past : List Event} {goal : Option (List (List Byte))} {broken : Bool} {short : Prop}
  {Q : Option Kick → Machine → List Event → Prop} {f : Step → BootM Kick}
  (env : Setting A b puff m₀ z₀ ans)

/-- The test for an empty list. -/
theorem Running.headSucc_eq {list avail : Word} (h : Running b.execAddr m₀ z₀ text list avail items s past)
    (hlist : list = kicklistAddr) : load32 s.mem (load32 s.mem list) = 0 ↔ items = [] := by
  have hne : ∀ k ∈ items.map Item.node, k ≠ 0 := by
    intro k hk
    obtain ⟨i, hi, rfl⟩ := List.mem_map.mp hk
    exact h.nodes i hi
  rw [h.items.list.isEmpty_iff hne (by rw [hlist]; decide), List.map_eq_nil_iff]

include env

/-- The test after the loop: there is a section, and a module on its list. -/
theorem layoutEnd_ensures (h : Phase b.execAddr config m₀ z₀ text n items st s past)
    (hgoal : goal = pathsAhead n items []) :
    Ensures A (layoutEnd st) s past
      (Booted b.execAddr m₀ z₀ ans text goal broken short items) := by
  cases h with
  | searching _ hk _ htracks htiled _ _ =>
    rw [layoutEnd, if_pos hk]
    refine ensures_pure fun _ => .null (.failed fun paths hpaths => ?_) htracks htiled
    exact absurd (hgoal.symm.trans hpaths) (by simp [pathsAhead, sectionLines])
  | loading _ hk hrun =>
    have hhead : onMem (headSucc st.kicklist) s =
        ⟨some (load32 s.mem (load32 s.mem st.kicklist)), s, []⟩ := onMem_run (headSucc_run _ _)
    rw [layoutEnd, if_neg (by rw [hk]; decide)]
    refine ensures_step env.prefixClosed hhead fun _ => ?_
    rw [List.append_nil, hk]
    by_cases hitems : items = []
    · rw [if_pos ((hrun.headSucc_eq rfl).mpr hitems)]
      refine ensures_pure fun _ => .null (.failed fun paths hpaths => ?_) hrun.tracks hrun.tiled
      rw [hgoal, hitems] at hpaths
      exact absurd hpaths (by simp [pathsAhead, sectionLines, nextPaths, sectionPaths])
    · rw [if_neg fun h => hitems ((hrun.headSucc_eq rfl).mp h)]
      have hpaths : goal = some (([] : List CStr).map CStr.bytes) := by
        rw [hgoal]
        exact nextPaths_nil_of_ne hitems
      rw [← List.append_nil items] at hrun hitems
      exact ensures_pure fun _ => .list hpaths .nil hrun hitems

/-- The label of the chosen section: the list is claimed and set up. -/
theorem newList_ensures (h : Phase b.execAddr config m₀ z₀ text 1 [] st s past)
    (hfail : ∀ s' past' avail' r addr, Tracks m₀ z₀ s' past' → Tiled b.execAddr past' avail' →
      .claim r addr 0 ∈ past' → Ensures A (f .fail) s' past' Q)
    (hnext : ∀ st' s' past', st'.p = st.p → SameOn s.mem s'.mem text →
      Phase b.execAddr config m₀ z₀ text 0 [] st' s' past' → Ensures A (f (.next st')) s' past' Q) :
    Ensures A (newList b { st with c := st.c + 1 } >>= f) s past Q := by
  obtain ⟨hc, hk, havail, htracks, htiled, hexec, howned⟩ : st.c + (0 + 1 : ℕ) = config ∧
      st.kicklist = 0 ∧ st.avail = kicklistAddr ∧ Tracks m₀ z₀ s past ∧
      Tiled b.execAddr past kicklistAddr ∧ execStores past = [] ∧ Owned past [text] := by
    cases h with
    | searching hc hk ha ht htl he ho => exact ⟨hc, hk, ha, ht, htl, he, ho⟩
  rw [newList, Traced.bind_assoc]
  dsimp only
  rw [havail]
  refine claimStore_ensures env htracks (fun hne => by rw [if_neg hne, Traced.bind_assoc])
    (fun htracks' => ?_) fun log hne hstores hgrants htracks₁ => ?_
  · rw [if_pos rfl, Traced.pure_bind]
    exact hfail _ _ _ _ _ htracks' (htiled.silent rfl)
      (List.mem_append_right _ (List.mem_singleton_self _))
  rw [Traced.bind_assoc]
  refine ensures_past env.prefixClosed fun hA => ?_
  have htiled₁ := htiled.add rfl hstores hgrants
  have hregion := mem_regions_of_stores hstores
  have howned₁ : Owned (past ++ log) (text :: listSpans kicklistAddr []) := by
    have hhead : ∀ o ∈ [Span.mk kicklistAddr.toNat 12], ∃ r ∈ regions log, o.Inside r :=
      List.forall_mem_singleton.mpr ⟨_, hregion, le_rfl, le_rfl⟩
    exact howned.add (env.separate htiled₁ hA) (List.pairwise_singleton ..) hhead
  -- the list head is written
  have hinit := alistInit_run s.mem kicklistAddr
  have hlist := alistInit_aosList s.mem (l := kicklistAddr) (by decide)
  have hin : ∀ w ∈ [(⟨kicklistAddr, 4⟩ : Access), ⟨kicklistAddr + 4, 4⟩, ⟨kicklistAddr + 8, 4⟩],
      w.InsideOne [⟨kicklistAddr.toNat, 12⟩] := by
    unfold Access.InsideOne
    decide
  have hhonest : MemM.Honest (alistInit kicklistAddr) :=
    MemM.honest_bind (MemM.honest_write _ _) fun _ =>
      MemM.honest_bind (MemM.honest_write _ _) fun _ => MemM.honest_write _ _
  have hsame := hhonest s.mem
  rw [hinit] at hsame hlist
  replace hsame := hsame.sameOutside hin
  have htext : text.Disjoint ⟨kicklistAddr.toNat, 12⟩ :=
    (List.pairwise_cons.mp howned₁.apart).1 _ List.mem_cons_self
  refine ensures_step env.prefixClosed (onMem_run hinit) fun _ => ?_
  rw [Traced.pure_bind]
  have htracks₂ := htracks₁.onMem (fun w hw _ => hin w hw) hsame fun r hr => by
    obtain rfl := List.mem_singleton.mp hr
    exact ⟨_, by rw [regions_append]; exact List.mem_append_right _ hregion, le_rfl, le_rfl⟩
  refine hnext _ _ _ rfl (hsame.sameOn (List.forall_mem_singleton.mpr htext)) (.loading ?_ rfl ?_)
  · simpa using hc
  · refine ⟨htracks₂, htiled₁.silent (stores_writes _), fun _ => ?_, howned₁.append _, ?_, ?_⟩
    · rw [execStores_silent htiled₁.stores_ne_nil (stores_writes _),
        execStores_append htiled.stores_ne_nil, hexec, hstores]
      rfl
    · exact fun i hi => absurd hi List.not_mem_nil
    · exact ⟨hlist, fun i hi => absurd hi List.not_mem_nil, fun i hi => absurd hi List.not_mem_nil⟩

/-! ## A line of the section -/

/-- The path behind a keyword of `k` bytes. -/
def entryCStr (k : ℕ) (line : CStr) : CStr where
  bytes := entryPath k line.bytes
  noNul h := line.noNul (List.mem_of_mem_drop ((List.dropWhile_sublist _).subset h))

/-- A file is loaded, and added to the list. -/
theorem loadEntry_ensures (h : Phase b.execAddr config m₀ z₀ text 0 items st s past) {k : ℕ}
    {p : Word} {line : CStr} (hline : CStrAt s.mem p line)
    (hin : (Span.mk p.toNat (line.bytes.length + 1)).Inside text) (hk : k ≤ line.bytes.length)
    (hfail : ∀ s' past' avail', Tracks m₀ z₀ s' past' → Tiled b.execAddr past' avail' →
      LoadFailed ans (entryCStr k line) past' → Ensures A (f .fail) s' past' Q)
    (hnext : ∀ st' s' past' item, st'.p = st.p → SameOn s.mem s'.mem text →
      LoadDone ans (entryCStr k line) (nextData b.execAddr items) item →
      Phase b.execAddr config m₀ z₀ text 0 (items ++ [item]) st' s' past' →
      Ensures A (f (.next st')) s' past' Q) :
    Ensures A (loadEntry b puff st (p + BitVec.ofNat 32 k) (nextData b.execAddr items) >>= f) s past
      Q := by
  obtain ⟨hc, hkicklist, hrun⟩ : st.c = config ∧ st.kicklist = kicklistAddr ∧
      Running b.execAddr m₀ z₀ text kicklistAddr st.avail items s past := by
    cases h with
    | loading hc hkl hrun => exact ⟨hc, hkl, hrun⟩
  refine ensures_past env.prefixClosed fun hpast => ?_
  have hfit : p.toNat + (line.bytes.length + 1) ≤ 2 ^ 32 :=
    hin.2.trans (hrun.owned.fits (env.separate hrun.tiled hpast) List.mem_cons_self)
  -- the path stands behind the keyword and the blanks
  have hat : BytesAt s.mem (p + BitVec.ofNat 32 k) (line.bytes.drop k ++ [0]) := by
    unfold CStrAt at hline
    rw [← List.take_append_drop k line.bytes, List.append_assoc, bytesAt_append,
      List.length_take, Nat.min_eq_left hk] at hline
    exact hline.2
  have hdrop : (line.bytes.drop k).length = line.bytes.length - k := List.length_drop
  obtain ⟨hskip, hpath⟩ := skipWhile_run (f := spcOrTab) rfl hat (by omega)
  have hlen : ((line.bytes.drop k).takeWhile spcOrTab).length + (entryPath k line.bytes).length =
      (line.bytes.drop k).length := by
    rw [entryPath, ← List.length_append, List.takeWhile_append_dropWhile]
  generalize hblanks : ((line.bytes.drop k).takeWhile spcOrTab).length = blanks at hskip hpath hlen
  have hto₁ : (p + BitVec.ofNat 32 k).toNat = p.toNat + k :=
    toNat_add_ofNat (n := line.bytes.length + 1) (by omega) (by omega)
  have hto : (p + BitVec.ofNat 32 k + BitVec.ofNat 32 blanks).toNat = p.toNat + k + blanks := by
    rw [toNat_add_ofNat (n := line.bytes.length + 1 - k) (by omega) (by omega), hto₁]
  have hin' : (Span.mk (p + BitVec.ofNat 32 k + BitVec.ofNat 32 blanks).toNat
      ((entryCStr k line).bytes.length + 1)).Inside text := by
    have hentry : (entryCStr k line).bytes.length = (entryPath k line.bytes).length := rfl
    unfold Span.Inside Span.stop at hin ⊢
    dsimp only at hin ⊢
    omega
  rw [loadEntry, Traced.bind_assoc]
  refine ensures_step env.prefixClosed (onMem_run hskip) fun _ => ?_
  rw [List.map_nil, List.append_nil, Traced.bind_assoc, hkicklist]
  have hdata : nextData b.execAddr items = 0 ∨ nextData b.execAddr items = b.execAddr ∧ items = [] := by
    cases items with
    | nil => exact Or.inr ⟨rfl, rfl⟩
    | cons i is => exact Or.inl rfl
  have hentry : CStrAt s.mem (p + BitVec.ofNat 32 k + BitVec.ofNat 32 blanks) (entryCStr k line) :=
    hpath
  refine ensures_bind env.prefixClosed (ensures_conseq
    (loadModuleFromZip_ensures env hdata hrun hentry hin' rfl) ?_)
  intro v s' log _ hloads
  cases hloads with
  | failed htracks htiled hwhy =>
    show Ensures A ((if (0 : Word) = 0 then pure Step.fail else pure (.next _)) >>= f) s' log Q
    rw [if_pos rfl, Traced.pure_bind]
    exact hfail _ _ _ htracks htiled hwhy
  | @done _ _ inc item hinc hdone hrunning hsame =>
    show Ensures A ((if inc = 0 then pure Step.fail else pure (.next _)) >>= f) s' log Q
    rw [if_neg hinc, Traced.pure_bind]
    exact hnext _ _ _ item rfl hsame hdone (.loading hc rfl hrunning)

omit env in
theorem isKeyword_length {str line : List Byte} (h : isKeyword str line = true) :
    str.length ≤ line.length := by
  have htake := (of_decide_eq_true h).1
  have hlen := congrArg List.length htake
  rw [List.length_take] at hlen
  omega

/-- A line that must start with a keyword and name a file. -/
theorem keywordEntry_ensures (h : Phase b.execAddr config m₀ z₀ text 0 items st s past) {p : Word}
    {line : CStr} {str : List Byte} (hstr : 0 ∉ str) (hline : CStrAt s.mem p line)
    (hin : (Span.mk p.toNat (line.bytes.length + 1)).Inside text) (hfail : f .fail = pure .null)
    {paths : Option (List (List Byte))} (hgoal : goal = if isKeyword str line.bytes = true then
      paths.map (entryPath str.length line.bytes :: ·) else none)
    (hnext : ∀ st' s' past' item, st'.p = st.p → SameOn s.mem s'.mem text →
      Phase b.execAddr config m₀ z₀ text 0 (items ++ [item]) st' s' past' →
      Ensures A (f (.next st')) s' past'
        (Booted b.execAddr m₀ z₀ ans text paths broken short (items ++ [item]))) :
    Ensures A (onMem (keyword str p) >>= fun found => (if found = true then
        loadEntry b puff st (p + BitVec.ofNat 32 str.length) (nextData b.execAddr items)
        else pure .fail) >>= f) s past
      (Booted b.execAddr m₀ z₀ ans text goal broken short items) := by
  refine ensures_step env.prefixClosed (onMem_run (keyword_run hstr hline)) fun _ => ?_
  rw [List.map_nil, List.append_nil]
  by_cases hkey : isKeyword str line.bytes = true
  · rw [if_pos hkey] at hgoal ⊢
    refine loadEntry_ensures env h hline hin (isKeyword_length hkey) ?_ ?_
    · intro s' past' avail' htracks htiled hwhy
      rw [hfail]
      exact ensures_pure fun _ => .null (Refusal.first hgoal hwhy) htracks htiled
    · intro st' s' past' item hp hsame hdone hphase
      exact ensures_conseq (hnext st' s' past' item hp hsame hphase) fun v s'' log _ hbooted =>
        hbooted.cons hgoal hdone
  · rw [if_neg hkey] at hgoal ⊢
    rw [Traced.pure_bind, hfail]
    refine ensures_pure fun _ => .null (.failed fun paths' hpaths => ?_) h.tracks h.tiled
    exact absurd (hgoal.symm.trans hpaths) (by simp)

/-- A line of the section: `EXEC` when the list is empty, `MODULE` when it is not. -/
theorem layoutEntry_ensures (h : Phase b.execAddr config m₀ z₀ text 0 items st s past) {p : Word}
    {line : CStr} {lines : List (List Byte)} (hline : CStrAt s.mem p line)
    (hin : (Span.mk p.toNat (line.bytes.length + 1)).Inside text)
    (hlabel : isLabel line.bytes = false) (hfail : f .fail = pure .null)
    (hnext : ∀ st' s' past' item, st'.p = st.p → SameOn s.mem s'.mem text →
      Phase b.execAddr config m₀ z₀ text 0 (items ++ [item]) st' s' past' →
      Ensures A (f (.next st')) s' past' (Booted b.execAddr m₀ z₀ ans text
        (pathsAhead 0 (items ++ [item]) lines) broken short (items ++ [item]))) :
    Ensures A (layoutEntry b puff config st p >>= f) s past (Booted b.execAddr m₀ z₀ ans text
      (pathsAhead 0 items (line.bytes :: lines)) broken short items) := by
  obtain ⟨hc, hkicklist, hrun⟩ : st.c = config ∧ st.kicklist = kicklistAddr ∧
      Running b.execAddr m₀ z₀ text kicklistAddr st.avail items s past := by
    cases h with
    | loading hc hkl hrun => exact ⟨hc, hkl, hrun⟩
  have hhead : onMem (headSucc st.kicklist) s =
      ⟨some (load32 s.mem (load32 s.mem st.kicklist)), s, []⟩ := onMem_run (headSucc_run _ _)
  have hahead (item : Item) : pathsAhead 0 (items ++ [item]) lines =
      modulePaths (lines.takeWhile fun line => !isLabel line) := by
    rw [pathsAhead, sectionLines, Option.bind_some]
    exact nextPaths_of_ne (List.append_ne_nil_of_right_ne_nil _ (List.cons_ne_nil _ _)) _
  simp only [hahead] at hnext
  rw [layoutEntry, if_neg (not_not.mpr hc), Traced.bind_assoc]
  refine ensures_step env.prefixClosed hhead fun _ => ?_
  rw [List.append_nil, hkicklist]
  by_cases hitems : items = []
  · rw [if_pos ((hrun.headSucc_eq rfl).mpr hitems), Traced.bind_assoc]
    subst hitems
    refine keywordEntry_ensures env h (by decide) hline hin hfail ?_ hnext
    exact pathsAhead_zero hlabel
  · rw [if_neg fun h => hitems ((hrun.headSucc_eq rfl).mp h), Traced.bind_assoc]
    have hdata : nextData b.execAddr items = 0 := nextData_of_ne hitems
    refine hdata ▸ keywordEntry_ensures env h (by decide) hline hin hfail ?_ hnext
    rw [pathsAhead_zero hlabel, nextPaths_of_ne hitems]
    exact modulePaths_cons _ _

/-- A line that is not empty. -/
theorem layoutLine_ensures (h : Phase b.execAddr config m₀ z₀ text n items st s past) {p : Word}
    {line : CStr} {lines : List (List Byte)} (hline : CStrAt s.mem p line)
    (hin : (Span.mk p.toNat (line.bytes.length + 1)).Inside text) (hfail : f .fail = pure .null)
    (hdone : ∀ st', f (.done st') = layoutEnd st')
    (hnext : ∀ n' items' st' s' past', st'.p = st.p → SameOn s.mem s'.mem text →
      Phase b.execAddr config m₀ z₀ text n' items' st' s' past' →
      Ensures A (f (.next st')) s' past' (Booted b.execAddr m₀ z₀ ans text
        (pathsAhead n' items' lines) broken short items')) :
    Ensures A (layoutLine b puff config st p >>= f) s past (Booted b.execAddr m₀ z₀ ans text
      (pathsAhead n items (line.bytes :: lines)) broken short items) := by
  have hkey : onMem (keyword (ascii ['L', 'A', 'B', 'E', 'L']) p) s =
      ⟨some (isLabel line.bytes), s, []⟩ := onMem_run (keyword_run (by decide) hline)
  rw [layoutLine, Traced.bind_assoc]
  refine ensures_step env.prefixClosed hkey fun _ => ?_
  rw [List.append_nil]
  by_cases hlabel : isLabel line.bytes = true
  · rw [if_pos hlabel]
    cases h with
    | @searching m _ _ _ hc hk ha htracks htiled hexec howned =>
      rw [pathsAhead_succ_label hlabel]
      cases m with
      | zero =>
        rw [if_pos (by omega)]
        refine newList_ensures env (.searching hc hk ha htracks htiled hexec howned) ?_
          fun st' s' past' => hnext 0 [] st' s' past'
        intro s' past' avail' r addr htracks' htiled' hmem
        rw [hfail]
        exact ensures_pure fun _ => .null (.refused hmem) htracks' htiled'
      | succ m =>
        rw [if_neg (by omega), if_neg (by omega), layoutEntry, if_pos (by dsimp only; omega),
          Traced.pure_bind]
        refine hnext (m + 1) [] _ _ _ rfl (SameOn.refl _ _) (.searching ?_ hk ha htracks htiled hexec
          howned)
        dsimp only
        omega
    | loading hc hk hrun =>
      rw [if_neg (by omega), if_pos (by omega), Traced.pure_bind, hdone, pathsAhead_zero_label hlabel]
      show Ensures A (layoutEnd st) s past _
      exact layoutEnd_ensures env (.loading hc hk hrun) rfl
  · rw [if_neg hlabel]
    rw [Bool.not_eq_true] at hlabel
    cases h with
    | @searching m _ _ _ hc hk ha htracks htiled hexec howned =>
      rw [pathsAhead_succ hlabel, layoutEntry, if_pos (by omega), Traced.pure_bind]
      exact hnext (m + 1) [] _ _ _ rfl (SameOn.refl _ _) (.searching hc hk ha htracks htiled hexec
        howned)
    | loading hc hk hrun =>
      exact layoutEntry_ensures env (.loading hc hk hrun) hline hin hlabel hfail
        fun st' s' past' item => hnext 0 (items ++ [item]) st' s' past'

/-! ## The loop -/

omit env in
/-- What is behind the first `k` bytes. -/
theorem Remains.drop {m m' : Mem} {p : Word} {rest : List Byte} {k : ℕ}
    (h : Remains m text p rest) (hfit : text.stop ≤ 2 ^ 32) (hk : k ≤ rest.length)
    (hbytes : BytesAt m' (p + BitVec.ofNat 32 k) (rest.drop k ++ [0])) :
    Remains m' text (p + BitVec.ofNat 32 k) (rest.drop k) := by
  have hstart := h.start
  have hstop := h.stop
  have hto : (p + BitVec.ofNat 32 k).toNat = p.toNat + k :=
    toNat_add_ofNat (n := rest.length + 1) (by omega) (by omega)
  refine ⟨hbytes, by omega, ?_, fun b hb => h.last b ?_⟩
  · rw [hto, List.length_drop]
    omega
  · rw [List.getLast?_drop] at hb
    split_ifs at hb
    · exact absurd hb (by simp)
    · exact hb

omit env in
theorem Remains.of_sameOn {m m' : Mem} {p : Word} {rest : List Byte} (h : Remains m text p rest)
    (hfit : text.stop ≤ 2 ^ 32) (hsame : SameOn m m' text) : Remains m' text p rest := by
  have hstart := h.start
  have hstop := h.stop
  have hlen : (rest ++ [(0 : Byte)]).length = rest.length + 1 := by simp
  refine ⟨h.bytes.of_sameOn (hsame.mono ⟨h.start, ?_⟩) (by omega), h.start, h.stop, h.last⟩
  show p.toNat + (rest ++ [(0 : Byte)]).length ≤ text.stop
  omega

omit env in
/-- Where the test of the loop fails there is at most the last newline. -/
theorem length_of_not_inText {m : Mem} {kicklayout kicklayoutLen p : Word} {rest : List Byte}
    (htext : text = ⟨kicklayout.toNat, kicklayoutLen.toNat + 2⟩) (hlong : kicklayoutLen.toNat < 2 ^ 31)
    (hne : kicklayout ≠ 0) (h : Remains m text p rest)
    (hin : ¬ inText kicklayout kicklayoutLen p = true) : rest.length ≤ 1 := by
  have hstart := h.start
  have hstop := h.stop
  rw [htext] at hstart hstop
  dsimp only [Span.stop] at hstart hstop
  have hpos : kicklayout.toNat ≠ 0 := fun h0 => hne (BitVec.eq_of_toNat_eq h0)
  have hp : p ≠ 0 := by
    intro h0
    rw [h0] at hstart
    have : (0 : Word).toNat = 0 := rfl
    omega
  have hsub : (p - kicklayout).toNat = p.toNat - kicklayout.toNat :=
    BitVec.toNat_sub_of_le (BitVec.le_def.mpr hstart)
  have hlen : kicklayoutLen.toInt = kicklayoutLen.toNat := BitVec.toInt_eq_toNat_of_lt (by omega)
  by_contra hlt
  refine hin (decide_eq_true ⟨hp, ?_⟩)
  rw [BitVec.toInt_eq_toNat_of_lt (by omega), hlen, hsub]
  omega

/-- **The loop**, by induction on its rounds: a round takes at least one byte of the text. -/
theorem layoutLoop_ensures {kicklayout kicklayoutLen : Word}
    (htext : text = ⟨kicklayout.toNat, kicklayoutLen.toNat + 2⟩) (hlong : kicklayoutLen.toNat < 2 ^ 31)
    (hne : kicklayout ≠ 0) (fuel : ℕ) {rest : List Byte} {lines : List (List Byte)}
    (h : Phase b.execAddr config m₀ z₀ text n items st s past) (hrest : Remains s.mem text st.p rest)
    (hlines : LinesOf rest lines broken) :
    Ensures A (layoutLoop b puff config kicklayout kicklayoutLen fuel st) s past
      (Booted b.execAddr m₀ z₀ ans text (pathsAhead n items lines) broken (fuel ≤ rest.length)
        items) := by
  induction fuel generalizing n items st s past rest lines with
  | zero => exact ensures_diverge fun _ => .unfinished (Nat.zero_le _) h.tracks h.tiled
  | succ fuel ih =>
    rw [layoutLoop]
    by_cases hin : inText kicklayout kicklayoutLen st.p = true
    · rw [if_pos hin, layoutBody, Traced.bind_assoc]
      refine ensures_past env.prefixClosed fun hpast => ?_
      have hsep := env.separate h.tiled hpast
      have hfit : text.stop ≤ 2 ^ 32 := h.owned.fits hsep List.mem_cons_self
      have hstop := hrest.stop
      obtain ⟨m', ws, hread, hafter⟩ := readLine_spec hrest.bytes (by omega)
      have hspan : (Span.mk st.p.toNat rest.length).Inside text := by
        refine ⟨hrest.start, ?_⟩
        show st.p.toNat + rest.length ≤ text.stop
        omega
      have hphase := h.onText hsep hspan hafter.frame hafter.inside
      have hleaves := hafter.leaves
      refine ensures_step env.prefixClosed (onMem_run hread) fun _ => ?_
      cases hview : viewLine rest with
      | stop =>
        show Ensures A (pure (Step.done st) >>= _) _ _ _
        rw [Traced.pure_bind]
        obtain ⟨rfl, -⟩ := hlines.of_stop hview
        exact layoutEnd_ensures env hphase rfl
      | error =>
        show Ensures A (pure Step.fail >>= _) _ _ _
        rw [Traced.pure_bind]
        exact ensures_pure fun _ => .null (.broken (hlines.of_error hview)) hphase.tracks hphase.tiled
      | skip k =>
        rw [hview] at hleaves
        show Ensures A (pure (Step.next { st with p := st.p + BitVec.ofNat 32 k }) >>= _) _ _ _
        rw [Traced.pure_bind]
        have hk := viewLine_skip hview
        refine ensures_conseq (ih (hphase.move _) (hrest.drop hfit hleaves.1 hleaves.2)
          (hlines.of_skip hview)) fun v s' log _ hbooted => hbooted.mono fun hshort => ?_
        rw [List.length_drop] at hshort
        have := hleaves.1
        omega
      | text i line k =>
        rw [hview] at hleaves
        obtain ⟨hik, hk, hnul, hline, hrest'⟩ := hleaves
        obtain ⟨lines', rfl, hlines'⟩ := hlines.of_text hview
        have hremains := hrest.drop hfit hk hrest'
        have hto : (st.p + BitVec.ofNat 32 i).toNat = st.p.toNat + i :=
          toNat_add_ofNat (n := rest.length + 1) (by omega) (by omega)
        have hin' : (Span.mk (st.p + BitVec.ofNat 32 i).toNat (line.length + 1)).Inside text := by
          have := hrest.start
          refine ⟨by dsimp only; omega, ?_⟩
          show (st.p + BitVec.ofNat 32 i).toNat + (line.length + 1) ≤ text.stop
          omega
        have hstr : CStrAt m' (st.p + BitVec.ofNat 32 i) ⟨line, hnul⟩ := hline
        refine layoutLine_ensures env (hphase.move _) hstr hin' rfl (fun _ => rfl)
          fun n' items' st' s' past' hp hsame hphase' => ?_
        show Ensures A (layoutLoop b puff config kicklayout kicklayoutLen fuel st') s' past' _
        have hnext : Remains s'.mem text st'.p (rest.drop k) := by
          rw [show st'.p = st.p + BitVec.ofNat 32 k from hp]
          exact hremains.of_sameOn hfit hsame
        refine ensures_conseq (ih hphase' hnext hlines') fun v s'' log _ hbooted =>
          hbooted.mono fun hshort => ?_
        rw [List.length_drop] at hshort
        omega
    · rw [if_neg hin]
      have hlen := length_of_not_inText htext hlong hne hrest hin
      obtain ⟨rfl, -⟩ := hlines.eq_nil hlen hrest.last
      exact layoutEnd_ensures env h rfl

end

end BBoot.Boot
