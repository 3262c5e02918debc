import BBoot.Boot.Calls
import BBoot.Boot.Items

/-!
# Loading one file

`load_module_from_zip` under an assumption on the trace that keeps the ranges
stored to apart (`Setting`). `Running` is what holds between two calls: the list
holds the modules loaded so far, and the Kicklayout and they lie in ranges of
their own.

Results:
* `loadModuleFromZip_ensures`: a call adds one module, its record and its data,
  or returns `0` for a reason (`LoadFailed`).
-/

namespace BBoot.Boot

open Zip Traced

/-! ## The name of a file -/

theorem fileName_suffix (path : List Byte) : ∃ dir, path = dir ++ fileName path := by
  obtain ⟨rest, hrest⟩ := List.takeWhile_prefix (· ≠ (0x2f : Byte)) (l := path.reverse)
  refine ⟨rest.reverse, ?_⟩
  rw [fileName, ← List.reverse_append, hrest, List.reverse_reverse]

/-- What follows the last `/` of a path. -/
def CStr.fileName (path : CStr) : CStr where
  bytes := Boot.fileName path.bytes
  noNul h := by
    obtain ⟨dir, hdir⟩ := fileName_suffix path.bytes
    exact path.noNul (hdir ▸ List.mem_append_right _ h)

section

variable {m : Mem} {p : Word} {path : CStr}

theorem fileName_length (path : List Byte) : (fileName path).length ≤ path.length := by
  obtain ⟨dir, hdir⟩ := fileName_suffix path
  conv_rhs => rw [hdir, List.length_append]
  exact Nat.le_add_left _ _

/-- It stands at the end of the path. -/
theorem CStrAt.fileName (h : CStrAt m p path) :
    CStrAt m (p + BitVec.ofNat 32 (path.bytes.length - (Boot.fileName path.bytes).length))
      (CStr.fileName path) := by
  obtain ⟨dir, hdir⟩ := fileName_suffix path.bytes
  have hlen : path.bytes.length - (Boot.fileName path.bytes).length = dir.length := by
    conv_lhs => rw [hdir]
    rw [List.length_append, ← hdir, Nat.add_sub_cancel]
  unfold CStrAt at h
  rw [hdir, List.append_assoc, bytesAt_append] at h
  rw [hlen]
  exact h.2

end

/-! ## The setting -/

/-- What is known of the answers of `zip_file_find`, `zip_file_uncompressedSize` and
    `zip_file_extract`, the entry being given by its central header. -/
structure Answers where
  find : CStr → ZStatus → Word → Prop
  size : (gfh : Word) → Word → Prop
  extract : (gfh : Word) → Extracted → Prop

/-- Runs whose trace meets `A`: the ranges stored to are apart, a claim is granted at
    the address it asks for, and the zip functions answer as `ans` says. -/
structure Setting (A : List Event → Prop) (b : Brd) (puff : Puff) (m₀ : Mem) (z₀ : ZipT)
    (ans : Answers) : Prop where
  prefixClosed : PrefixClosed A
  separate : ∀ {log avail}, Tiled b.execAddr log avail → A log → Separate log
  claim : ∀ {past n r addr}, A (past ++ [.claim r addr (b.claim n addr r.size)]) →
    b.claim n addr r.size = addr ∨ b.claim n addr r.size = 0
  bounded : PuffBounded puff
  find : ∀ {s past name status g}, Tracks m₀ z₀ s past → (stores past).Sublist (grants past) →
    A (past ++ [.read (zipFileFind s.mem s.z name).log]) →
    (zipFileFind s.mem s.z name).val = some (status, { s.z with gfh := g }) → ans.find name status g
  size : ∀ {s past}, Tracks m₀ z₀ s past → (stores past).Sublist (grants past) →
    A (past ++ [.read (zipFileUncompressedSize s.mem s.z).log]) →
    ans.size s.z.gfh (field32 s.mem (s.z.gfh + 24))
  extract : ∀ {s past r buffer x}, Tracks m₀ z₀ s past → (stores past).Sublist (grants past) →
    (r, buffer) ∈ grants past → ans.size s.z.gfh (field32 s.mem (s.z.gfh + 24)) →
    (field32 s.mem (s.z.gfh + 24)).toNat ≤ r.need →
    A (past ++ (zipExtract puff r buffer s).log) →
    (zipFileExtract puff s.mem s.z buffer).val = some x → ans.extract s.z.gfh x

/-- The file at `path` was loaded as `item`. -/
structure LoadDone (ans : Answers) (path : CStr) (data : Word) (item : Item) : Prop where
  name : item.record.name = CStr.fileName path
  name_ne : fileName path.bytes ≠ []
  id : item.record.id = execId data
  file : ∃ g, ans.find path .zOk g ∧ ans.size g item.record.size ∧ ans.extract g ⟨.zOk, item.data⟩

/-- Why it was not. -/
inductive LoadFailed (ans : Answers) (path : CStr) (log : List Event) : Prop
  | noName : fileName path.bytes = [] → LoadFailed ans path log
  | notFound {g : Word} : ans.find path .zError g → LoadFailed ans path log
  | notExtracted {g : Word} {out : List Byte} : ans.find path .zOk g →
      ans.extract g ⟨.zError, out⟩ → LoadFailed ans path log
  | refused {r : Request} {addr : Word} : .claim r addr 0 ∈ log → LoadFailed ans path log

/-- Between two calls: the modules `items` are on the list, and the next one is claimed
    at `avail`. `EXEC` comes first, at its own address. -/
structure Running (execAddr : Word) (m₀ : Mem) (z₀ : ZipT) (text : Span) (list avail : Word)
    (items : List Item) (s : Machine) (past : List Event) : Prop where
  tracks : Tracks m₀ z₀ s past
  tiled : Tiled execAddr past avail
  fresh : items = [] → execStores past = []
  owned : Owned past (text :: listSpans list items)
  nodes : ∀ i ∈ items, i.node ≠ 0
  items : ItemsAt s.mem list items

section

variable {A : List Event → Prop} {b : Brd} {puff : Puff} {m₀ : Mem} {z₀ : ZipT} {ans : Answers}
  {text : Span} {list avail : Word} {items : List Item} {s : Machine} {past : List Event}

/-- `0` is returned for a reason, or the module is added and the number of bytes it took
    returned. -/
inductive Loads (b : Brd) (m₀ : Mem) (z₀ : ZipT) (ans : Answers) (text : Span) (list avail : Word)
    (items : List Item) (path : CStr) (data : Word) (m : Mem) :
    Option Word → Machine → List Event → Prop
  | failed {s' : Machine} {log : List Event} {avail' : Word} : Tracks m₀ z₀ s' log →
      Tiled b.execAddr log avail' → LoadFailed ans path log →
      Loads b m₀ z₀ ans text list avail items path data m (some 0) s' log
  | done {s' : Machine} {log : List Event} {inc : Word} {item : Item} : inc ≠ 0 →
      LoadDone ans path data item →
      Running b.execAddr m₀ z₀ text list (avail + inc) (items ++ [item]) s' log →
      SameOn m s'.mem text →
      Loads b m₀ z₀ ans text list avail items path data m (some inc) s' log

variable (env : Setting A b puff m₀ z₀ ans)

include env

/-! ## A claim and an extraction -/

/-- A claim is refused, or granted at the address it asks for. -/
theorem claim_ensures {α : Type} {r : Request} {addr : Word} {f : Word → BootM α}
    {Q : Option α → Machine → List Event → Prop}
    (hrefused : Ensures A (f 0) { s with claims := s.claims + 1 } (past ++ [.claim r addr 0]) Q)
    (hgranted : addr ≠ 0 →
      Ensures A (f addr) { s with claims := s.claims + 1 } (past ++ [.claim r addr addr]) Q) :
    Ensures A (claim b r addr >>= f) s past Q := by
  refine ensures_step env.prefixClosed (claim_run b r addr s) fun hA => ?_
  rcases env.claim hA with h | h
  · rw [h]
    by_cases h0 : addr = 0
    · rw [h0] at hrefused ⊢
      exact hrefused
    · exact hgranted h0
  · rw [h]
    exact hrefused

/-- What follows a claim whose range is stored to as a whole. -/
theorem claimStore_ensures {α : Type} {r : Request} {addr : Word} {f : Word → BootM α}
    {g : Unit → BootM α} {Q : Option α → Machine → List Event → Prop} (htracks : Tracks m₀ z₀ s past)
    (hf : addr ≠ 0 → f addr = storeIf true r addr >>= g)
    (hrefused : Tracks m₀ z₀ { s with claims := s.claims + 1 } (past ++ [.claim r addr 0]) →
      Ensures A (f 0) { s with claims := s.claims + 1 } (past ++ [.claim r addr 0]) Q)
    (hstored : ∀ log, addr ≠ 0 → stores log = [(r, addr)] → grants log = [(r, addr)] →
      Tracks m₀ z₀ { s with claims := s.claims + 1 } (past ++ log) →
      Ensures A (g ()) { s with claims := s.claims + 1 } (past ++ log) Q) :
    Ensures A (claim b r addr >>= f) s past Q := by
  refine claim_ensures env (hrefused (htracks.event rfl ⟨_, rfl⟩ rfl)) fun haddr => ?_
  rw [hf haddr]
  refine ensures_step env.prefixClosed (storeIf_run _ _ _) fun _ => ?_
  rw [List.append_assoc]
  refine hstored _ haddr rfl (if_neg haddr) ?_
  exact htracks.append (fun w hw _ => absurd hw (by simp)) ⟨_, rfl⟩ (SameOutside.refl _ _)

/-- An extraction into the range it was claimed for: it fails, or the file stands there. -/
structure Extraction (s : Machine) (r : Request) (buffer : Word) (x : Extracted) (s' : Machine)
    (log : List Event) : Prop where
  stores : stores log = if starts x = true then [(r, buffer)] else []
  grants : grants log = []
  zip : s'.z = s.z
  length : x.out.length ≤ (field32 s.mem (s.z.gfh + 24)).toNat
  done : x.status = .zOk → SameOutside s.mem s'.mem [r.region buffer] ∧ BytesAt s'.mem buffer x.out

/-- What follows an extraction, whether it succeeds or not. -/
theorem zipExtract_ensures {α : Type} {r : Request} {buffer : Word} {f : ZStatus → BootM α}
    {Q : Option α → Machine → List Event → Prop} (htracks : Tracks m₀ z₀ s past)
    (hgranted : (stores past).Sublist (grants past)) (hgrant : (r, buffer) ∈ grants past)
    (hsize : ans.size s.z.gfh (field32 s.mem (s.z.gfh + 24)))
    (hneed : (field32 s.mem (s.z.gfh + 24)).toNat ≤ r.need)
    (hsep : ∀ log, (stores log = [] ∨ stores log = [(r, buffer)]) → grants log = [] →
      A (past ++ log) → Separate (past ++ log))
    (hf : ∀ x s' log, Extraction s r buffer x s' log → Tracks m₀ z₀ s' (past ++ log) →
      ans.extract s.z.gfh x → Ensures A (f x.status) s' (past ++ log) Q) :
    Ensures A (zipExtract puff r buffer >>= f) s past Q := by
  obtain ⟨x, hx⟩ := zipFileExtract_returns puff s.mem s.z buffer
  have hlen := zipFileExtract_length env.bounded hx
  have hrun := zipExtract_run puff r buffer s hx
  generalize hlog : Event.extract (zipFileExtract puff s.mem s.z buffer).log (some x) ::
    ((if starts x = true then [.store r buffer] else []) ++ [.write ⟨buffer, x.out.length⟩]) = log
    at hrun
  have hstores : stores log = if starts x = true then [(r, buffer)] else [] := by
    rw [← hlog]
    split_ifs <;> rfl
  have hgrants : grants log = [] := by
    rw [← hlog]
    split_ifs <;> rfl
  have hcases : stores log = [] ∨ stores log = [(r, buffer)] := by
    rw [hstores]
    split_ifs
    · exact Or.inr rfl
    · exact Or.inl rfl
  refine ensures_step env.prefixClosed hrun fun hA => ?_
  have hafter := zipExtract_tracks htracks hx (hlen.trans hneed)
    (by rw [hrun]; exact hsep log hcases hgrants hA)
  have hans := env.extract htracks hgranted hgrant hsize hneed (by rwa [hrun]) hx
  rw [hrun] at hafter
  refine hf x _ log ⟨hstores, hgrants, rfl, hlen, fun hok => ?_⟩ hafter.1 hans
  exact hafter.2 (decide_eq_true (Or.inl hok))

/-- The same where the ranges stored to have their order. -/
theorem zipExtract_tiled {α : Type} {r : Request} {buffer avail' : Word} {f : ZStatus → BootM α}
    {Q : Option α → Machine → List Event → Prop} (htracks : Tracks m₀ z₀ s past)
    (hgrant : (r, buffer) ∈ grants past)
    (hsize : ans.size s.z.gfh (field32 s.mem (s.z.gfh + 24)))
    (hneed : (field32 s.mem (s.z.gfh + 24)).toNat ≤ r.need)
    (hnone : ∀ log, stores log = [] → Tiled b.execAddr (past ++ log) avail)
    (hsome : ∀ log, stores log = [(r, buffer)] → grants log = [] →
      Tiled b.execAddr (past ++ log) avail')
    (hf : ∀ x s' log, Extraction s r buffer x s' log → Tracks m₀ z₀ s' (past ++ log) →
      Tiled b.execAddr (past ++ log) (if starts x = true then avail' else avail) →
      ans.extract s.z.gfh x → Ensures A (f x.status) s' (past ++ log) Q) :
    Ensures A (zipExtract puff r buffer >>= f) s past Q := by
  have hgranted : (stores past).Sublist (grants past) := by
    have h := (hnone [] rfl).granted
    rwa [List.append_nil] at h
  refine zipExtract_ensures env htracks hgranted hgrant hsize hneed (fun log hcases hgrants hA => ?_)
    fun x s' log hx htracks' hans => hf x s' log hx htracks' ?_ hans
  · rcases hcases with h | h
    · exact env.separate (hnone log h) hA
    · exact env.separate (hsome log h hgrants) hA
  · have hstores := hx.stores
    split_ifs at hstores ⊢
    · exact hsome log hstores hx.grants
    · exact hnone log hstores

/-! ## The module is added -/

/-- Lines 92–94 for a `module_t` and data in ranges of their own. -/
theorem addPlaced_ensures {data bin name mod inc : Word} {nm : CStr} {out : List Byte} {item : Item}
    (hitem : item = ⟨mod, ⟨nm, execId data, bin, field32 s.mem (s.z.gfh + 24)⟩, out⟩)
    (htracks : Tracks m₀ z₀ s past) (htiled : Tiled b.execAddr past avail)
    (howned : Owned past (text :: listSpans list (items ++ [item])))
    (hitems : ItemsAt s.mem list items) (hnodes : ∀ i ∈ items, i.node ≠ 0) (hmod : mod ≠ 0)
    (hname : CStrAt s.mem name nm) (hout : BytesAt s.mem bin out) :
    Ensures A (addPlaced data bin name list (some (mod, inc))) s past fun v s' log =>
      v = some inc ∧ Running b.execAddr m₀ z₀ text list avail (items ++ [item]) s' log ∧
        SameOn s.mem s'.mem text ∧ ans.size s.z.gfh item.record.size := by
  subst hitem
  let item : Item := ⟨mod, ⟨nm, execId data, bin, field32 s.mem (s.z.gfh + 24)⟩, out⟩
  replace howned : Owned past (text :: listSpans list (items ++ [item])) := howned
  refine ensures_past env.prefixClosed fun hpast => ?_
  have hsep := env.separate htiled hpast
  have hspans := (List.pairwise_cons.mp howned.apart).2
  have hfits : ∀ o ∈ listSpans list (items ++ [item]), o.stop ≤ 2 ^ 32 := fun o ho =>
    howned.fits hsep (List.mem_cons_of_mem _ ho)
  obtain ⟨m₁, log₁, m₂, log₂, hrun₁, hrun₂, hitems₂, hsame₁, hsame₂, hlog₁, hlog₂⟩ :=
    addModule_items data hitems hname hout hspans hfits
  have hitem : item ∈ items ++ [item] := List.mem_append_right _ List.mem_cons_self
  -- what is written is the new `module_t` and the cells of the list
  have hnode : nodeSpan mod nm.bytes.length ∈ listSpans list (items ++ [item]) := nodeSpan_mem hitem
  have hcells : ∀ c ∈ nodeSpan mod nm.bytes.length :: cells list (items.map Item.node),
      ∃ o ∈ listSpans list (items ++ [item]), c.Inside o := by
    intro c hc
    rcases List.mem_cons.mp hc with rfl | hc
    · exact ⟨_, hnode, le_rfl, le_rfl⟩
    · obtain ⟨o, ho, hin⟩ := cells_inside_spans hc
      rw [listSpans_append]
      exact ⟨o, List.mem_append_left _ ho, hin⟩
  have hregions : ∀ c ∈ nodeSpan mod nm.bytes.length :: cells list (items.map Item.node),
      ∃ r ∈ regions past, c.Inside r := by
    intro c hc
    obtain ⟨o, ho, hin⟩ := hcells c hc
    obtain ⟨r, hr, hor⟩ := howned.inside o (List.mem_cons_of_mem _ ho)
    exact ⟨r, hr, hor.1.trans hin.1, hin.2.trans hor.2⟩
  have htext : ∀ c ∈ nodeSpan mod nm.bytes.length :: cells list (items.map Item.node),
      text.Disjoint c := by
    intro c hc
    obtain ⟨o, ho, hin⟩ := hcells c hc
    exact ((List.pairwise_cons.mp howned.apart).1 o ho).mono ⟨le_rfl, le_rfl⟩ hin
  rw [addPlaced]
  refine ensures_step env.prefixClosed (uncompressedSize_run s) fun hA => ?_
  have hsize := env.size htracks htiled.granted hA
  have htracks₀ : Tracks m₀ z₀ s (past ++ [.read (zipFileUncompressedSize s.mem s.z).log]) :=
    htracks.event rfl ⟨_, rfl⟩ rfl
  refine ensures_step env.prefixClosed (onMem_run hrun₁) fun _ => ?_
  have htracks₁ := htracks₀.onMem (fun w hw _ => hlog₁ w hw) hsame₁ fun c hc => by
    obtain ⟨r, hr, hin⟩ := hregions c hc
    exact ⟨r, mem_regions_append hr, hin⟩
  refine ensures_step env.prefixClosed (onMem_run hrun₂) fun _ => ?_
  have htracks₂ := htracks₁.onMem (fun w hw _ => hlog₂ w hw) hsame₂ fun c hc => by
    obtain rfl := List.mem_singleton.mp hc
    obtain ⟨r, hr, hin⟩ := hregions _ List.mem_cons_self
    exact ⟨r, mem_regions_append (mem_regions_append hr), hin⟩
  refine ensures_pure fun _ => ⟨rfl, ⟨htracks₂, ?_, ?_, ?_, ?_, hitems₂⟩, ?_, hsize⟩
  · have hread : stores [Event.read (zipFileUncompressedSize s.mem s.z).log] = [] := rfl
    exact ((htiled.silent hread).silent (stores_writes _)).silent (stores_writes _)
  · exact fun h => absurd h (List.append_ne_nil_of_right_ne_nil _ (List.cons_ne_nil _ _))
  · exact ((howned.append _).append _).append _
  · intro i hi
    rcases List.mem_append.mp hi with hi | hi
    · exact hnodes i hi
    · obtain rfl := List.mem_singleton.mp hi
      exact hmod
  · refine (hsame₁.sameOn htext).trans (hsame₂.sameOn fun c hc => ?_)
    obtain rfl := List.mem_singleton.mp hc
    exact htext _ List.mem_cons_self

/-- The end of a call, once the file is extracted and there is room for its `module_t`. -/
theorem addPlaced_loads {data bin name mod inc : Word} {path : CStr} {out : List Byte} {m : Mem}
    (htracks : Tracks m₀ z₀ s past) (htiled : Tiled b.execAddr past (avail + inc))
    (howned : Owned past (text :: listSpans list items ++
      [nodeSpan mod (fileName path.bytes).length, ⟨bin.toNat, out.length⟩]))
    (hitems : ItemsAt s.mem list items) (hnodes : ∀ i ∈ items, i.node ≠ 0) (hmod : mod ≠ 0)
    (hname : CStrAt s.mem name (CStr.fileName path)) (hout : BytesAt s.mem bin out) (hne : fileName path.bytes ≠ [])
    (hfind : ans.find path .zOk s.z.gfh) (hextract : ans.extract s.z.gfh ⟨.zOk, out⟩)
    (hsame : SameOn m s.mem text) (hinc : inc ≠ 0) :
    Ensures A (addPlaced data bin name list (some (mod, inc))) s past
      (Loads b m₀ z₀ ans text list avail items path data m) := by
  let item : Item := ⟨mod, ⟨CStr.fileName path, execId data, bin, field32 s.mem (s.z.gfh + 24)⟩, out⟩
  have hspans : text :: listSpans list (items ++ [item]) = text :: listSpans list items ++
      [nodeSpan mod (fileName path.bytes).length, ⟨bin.toNat, out.length⟩] := by
    rw [listSpans_append]
    rfl
  refine ensures_conseq (addPlaced_ensures env (rfl : item = _) htracks htiled (hspans ▸ howned)
    hitems hnodes hmod hname hout) ?_
  rintro v s' log - ⟨rfl, hrunning, hsame', hsize⟩
  exact .done hinc ⟨rfl, hne, rfl, _, hfind, hsize, hextract⟩ hrunning (hsame.trans hsame')

omit env in
/-- What is stored in a range of its own changes neither the text nor the modules. -/
theorem Owned.frame {m m' : Mem} {r : Span} {log : List Event}
    (h : Owned past (text :: listSpans list items)) (hsep : Separate (past ++ log))
    (hitems : ItemsAt m list items) (hsame : SameOutside m m' [r]) (hr : r ∈ regions log) :
    SameOn m m' text ∧ ItemsAt m' list items := by
  have hspan : ∀ o ∈ text :: listSpans list items, SameOn m m' o := by
    intro o ho
    obtain ⟨r', hr', hin⟩ := h.inside o ho
    refine hsame.sameOn (List.forall_mem_singleton.mpr ?_)
    exact (hsep.disjoint hr' hr).mono hin ⟨le_rfl, le_rfl⟩
  refine ⟨hspan _ List.mem_cons_self, ?_⟩
  exact hitems.of_sameOn (List.pairwise_cons.mp h.apart).2
    (fun o ho => (h.append log).fits hsep (List.mem_cons_of_mem _ ho))
    fun o ho => hspan o (List.mem_cons_of_mem _ ho)

/-! ## A file is loaded -/

omit env in
/-- A size that wraps to `0` would be one of nearly all of memory, the list with it. -/
theorem Owned.size_ne_zero {r : Request} {addr : Word} {log : List Event}
    (h : Owned past (text :: listSpans list items)) (hlist : list = kicklistAddr)
    (hsep : Separate (past ++ log)) (hr : (r, addr) ∈ stores log) (hneed : 0 < r.need) :
    r.size ≠ 0 := by
  intro hsize
  have hlt := Request.lt_need_of_size_eq_zero hneed hsize
  obtain ⟨r', hr', hin⟩ := h.inside ⟨list.toNat, 12⟩ (List.mem_cons_of_mem _ List.mem_cons_self)
  have hregion : r.region addr ∈ regions log := List.mem_map_of_mem (f := fun q => q.1.region q.2) hr
  have hfit := hsep.fits _ (by rw [regions_append]; exact List.mem_append_right _ hregion)
  have happart := (hsep.disjoint hr' hregion).mono hin ⟨le_rfl, le_rfl⟩
  have hto : list.toNat = 0xec00000 := by rw [hlist]; rfl
  unfold Span.Disjoint Span.stop Request.region at happart
  unfold Span.stop Request.region at hfit
  dsimp only at happart hfit
  omega

omit env in
/-- Events that neither store nor write keep what is known between two calls. -/
theorem Running.silent (h : Running b.execAddr m₀ z₀ text list avail items s past) {s' : Machine}
    {log : List Event} (hlog : ∀ e ∈ log, e.silent = true) (hz : ∃ g, s'.z = { s.z with gfh := g })
    (hmem : s'.mem = s.mem) :
    Running b.execAddr m₀ z₀ text list avail items s' (past ++ log) where
  tracks := h.tracks.silent hlog hz hmem
  tiled := h.tiled.silent (stores_of_silent hlog)
  fresh hitems := by
    rw [execStores_silent h.tiled.stores_ne_nil (stores_of_silent hlog)]
    exact h.fresh hitems
  owned := h.owned.append log
  items := by
    rw [hmem]
    exact h.items
  nodes := h.nodes

omit env in
theorem Running.event (h : Running b.execAddr m₀ z₀ text list avail items s past) {s' : Machine}
    {e : Event} (he : e.silent = true) (hz : ∃ g, s'.z = { s.z with gfh := g })
    (hmem : s'.mem = s.mem) : Running b.execAddr m₀ z₀ text list avail items s' (past ++ [e]) :=
  h.silent (List.forall_mem_singleton.mpr he) hz hmem

omit env in
theorem starts_of_ok {x : Extracted} (h : x.status = .zOk) : starts x = true :=
  decide_eq_true (Or.inl h)

omit env in
theorem failed_of_error {x : Extracted} {path : CStr} {g : Word} {log : List Event}
    (h : x.status = .zError) (hfind : ans.find path .zOk g) (hans : ans.extract g x) :
    LoadFailed ans path log := by
  obtain ⟨status, out⟩ := x
  obtain rfl : status = .zError := h
  exact .notExtracted hfind hans

/-- The file stands in the range claimed for it, and the text and the modules are as they
    were. -/
structure Landed (execAddr : Word) (m₀ : Mem) (z₀ : ZipT) (ans : Answers) (text : Span)
    (list avail : Word) (items : List Item) (q : Request × Word) (s : Machine) (past : List Event)
    (s' : Machine) (log : List Event) (out : List Byte) : Prop where
  stores : stores log = [q]
  tracks : Tracks m₀ z₀ s' (past ++ log)
  tiled : Tiled execAddr (past ++ log) avail
  separate : Separate (past ++ log)
  zip : s'.z = s.z
  length : out.length ≤ (field32 s.mem (s.z.gfh + 24)).toNat
  data : BytesAt s'.mem q.2 out
  answer : ans.extract s.z.gfh ⟨.zOk, out⟩
  text : SameOn s.mem s'.mem text
  items : ItemsAt s'.mem list items

omit env in
theorem Landed.region {q : Request × Word} {s' : Machine} {log : List Event} {out : List Byte}
    (h : Landed b.execAddr m₀ z₀ ans text list avail items q s past s' log out) :
    q.1.region q.2 ∈ regions log := mem_regions_of_stores h.stores

/-- **Room is claimed for the file** and it is extracted there, or `0` is returned. -/
theorem extractTo_loads {r : Request} {addr avail' data : Word} {path : CStr}
    {f : Word → BootM Word} (hrun : Running b.execAddr m₀ z₀ text list avail items s past)
    (hfind : ans.find path .zOk s.z.gfh) (hsize : ans.size s.z.gfh (field32 s.mem (s.z.gfh + 24)))
    (hneed : (field32 s.mem (s.z.gfh + 24)).toNat ≤ r.need)
    (htiled : ∀ log, stores log = [(r, addr)] → grants log = [(r, addr)] →
      Tiled b.execAddr (past ++ log) avail')
    (hf : ∀ s' log out, addr ≠ 0 →
      Landed b.execAddr m₀ z₀ ans text list avail' items (r, addr) s past s' log out →
      Ensures A (f addr) s' (past ++ log) (Loads b m₀ z₀ ans text list avail items path data s.mem)) :
    Ensures A (claim b r addr >>= fun bin => if bin = 0 then pure 0 else
      zipExtract puff r bin >>= fun extracted => if extracted = .zError then pure 0 else f bin) s past
      (Loads b m₀ z₀ ans text list avail items path data s.mem) := by
  have htracks₁ (ret : Word) : Tracks m₀ z₀ { s with claims := s.claims + 1 }
      (past ++ [.claim r addr ret]) := hrun.tracks.event rfl ⟨_, rfl⟩ rfl
  refine claim_ensures env ?_ fun haddr => ?_
  · rw [if_pos rfl]
    exact ensures_pure fun _ => .failed (htracks₁ 0) (hrun.tiled.silent rfl)
      (.refused (List.mem_append_right _ (List.mem_singleton_self _)))
  rw [if_neg haddr]
  have hgrants : grants [Event.claim r addr addr] = [(r, addr)] := if_neg haddr
  have hnone (log : List Event) (h : stores log = []) :
      Tiled b.execAddr (past ++ [.claim r addr addr] ++ log) avail := by
    rw [List.append_assoc]
    exact hrun.tiled.silent h
  have hsome (log : List Event) (h : stores log = [(r, addr)]) (hg : grants log = []) :
      Tiled b.execAddr (past ++ [.claim r addr addr] ++ log) avail' := by
    rw [List.append_assoc]
    exact htiled _ h (by rw [grants_append, hgrants, hg, List.append_nil])
  refine zipExtract_tiled env (htracks₁ addr) ?_ hsize hneed hnone hsome
    fun x s' log hx htracks₂ htiled₂ hans => ?_
  · rw [grants_append, hgrants]
    exact List.mem_append_right _ (List.mem_singleton_self _)
  cases hok : x.status with
  | zError =>
    rw [if_pos rfl]
    exact ensures_pure fun _ => .failed htracks₂ htiled₂ (failed_of_error hok hfind hans)
  | zOk =>
    have hstores := hx.stores
    rw [if_pos (starts_of_ok hok)] at hstores htiled₂
    rw [if_neg (by decide)]
    refine ensures_past env.prefixClosed fun hA => ?_
    have hsep := env.separate htiled₂ hA
    have hregion : r.region addr ∈ regions log := mem_regions_of_stores hstores
    obtain ⟨hsame, hout⟩ := hx.done hok
    obtain ⟨htext, hitems⟩ := (hrun.owned.append _).frame hsep hrun.items hsame hregion
    rw [List.append_assoc] at htracks₂ htiled₂ hsep ⊢
    refine hf s' _ x.out haddr ⟨hstores, htracks₂, htiled₂, hsep, hx.zip, hx.length, hout, ?_, htext,
      hitems⟩
    rw [← hok]
    exact hans

section

variable {clen nlen name : Word} {path : CStr}
  (hrun : Running b.execAddr m₀ z₀ text list avail items s past)
  (hclen : clen = field32 s.mem (s.z.gfh + 24))
  (hnlen : nlen.toNat = (fileName path.bytes).length)
  (hname : CStrAt s.mem name (CStr.fileName path))
  (hin : (Span.mk name.toNat ((fileName path.bytes).length + 1)).Inside text)
  (hne : fileName path.bytes ≠ []) (hfind : ans.find path .zOk s.z.gfh)
  (hsize : ans.size s.z.gfh clen) (hlist : list = kicklistAddr)

include hrun hclen hnlen hname hin hne hfind hsize hlist

/-- A module with its `module_t` behind it. -/
theorem extractModule_module :
    Ensures A (extractModule b puff 0 avail clen nlen name list) s past
      (Loads b m₀ z₀ ans text list avail items path 0 s.mem) := by
  have hrequest : fileRequest 0 clen nlen = .module clen nlen := if_pos rfl
  have haddr : fileAddr 0 avail = avail := if_pos rfl
  have halign := le_alignUp clen.toNat (d := 4) (by omega)
  have hneed : clen.toNat ≤ (Request.module clen nlen).need := by
    rw [Request.need]
    omega
  rw [extractModule, hrequest, haddr]
  refine extractTo_loads env hrun hfind (hclen ▸ hsize) (hclen ▸ hneed)
    (fun log => hrun.tiled.add rfl) fun s' log out havail hland => ?_
  have hsep := hland.separate
  -- the data and the `module_t` inside the range
  have hfit : avail.toNat + (alignUp clen.toNat 4 + (37 + nlen.toNat)) ≤ 2 ^ 32 :=
    hsep.fits ((Request.module clen nlen).region avail)
      (by rw [regions_append]; exact List.mem_append_right _ hland.region)
  have hmod : (avail + roundUp clen 4).toNat = avail.toNat + alignUp clen.toNat 4 := by
    rw [BitVec.toNat_add, Request.roundUp4_toNat]
    omega
  have hlen : out.length ≤ clen.toNat := hclen ▸ hland.length
  have hnew : ∀ o ∈ [nodeSpan (avail + roundUp clen 4) (fileName path.bytes).length,
      ⟨avail.toNat, out.length⟩], o.Inside ((Request.module clen nlen).region avail) := by
    intro o ho
    simp only [List.mem_cons, List.not_mem_nil, or_false] at ho
    unfold Span.Inside Span.stop Request.region Request.need
    rcases ho with rfl | rfl
    · unfold nodeSpan
      dsimp only
      omega
    · dsimp only
      omega
  have happart : (nodeSpan (avail + roundUp clen 4) (fileName path.bytes).length).Disjoint
      ⟨avail.toNat, out.length⟩ := by
    unfold Span.Disjoint Span.stop nodeSpan
    dsimp only
    omega
  have howned := hrun.owned.add hsep (List.pairwise_pair.mpr happart) fun o ho =>
    ⟨_, hland.region, hnew o ho⟩
  have hplace : placeModule b 0 avail clen nlen =
      pure (some (avail + roundUp clen 4, (Request.module clen nlen).size)) := if_pos rfl
  rw [hplace, Traced.pure_bind]
  refine addPlaced_loads env hland.tracks hland.tiled howned hland.items hrun.nodes ?_ ?_ hland.data
    hne ?_ ?_ hland.text ?_
  · intro h0
    rw [h0] at hmod
    have hzero : avail.toNat = 0 := by
      have : (0 : Word).toNat = 0 := rfl
      omega
    exact havail (BitVec.eq_of_toNat_eq hzero)
  · exact hname.of_sameOn hin hland.text ((hrun.owned.append log).fits hsep List.mem_cons_self)
  · rwa [hland.zip]
  · rw [hland.zip]
    exact hland.answer
  · exact hrun.owned.size_ne_zero hlist hsep (by rw [hland.stores]; exact List.mem_singleton_self _)
      (by rw [Request.need]; omega)

/-- The image of `EXEC`, with its `module_t` in front of the modules. -/
theorem extractModule_exec (hitems : items = []) :
    Ensures A (extractModule b puff b.execAddr avail clen nlen name list) s past
      (Loads b m₀ z₀ ans text list avail items path b.execAddr s.mem) := by
  have hexec := b.execAddr_ne
  have hrequest : fileRequest b.execAddr clen nlen = .exec clen := if_neg hexec
  have haddr : fileAddr b.execAddr avail = b.execAddr := if_neg hexec
  have hneed : clen.toNat ≤ (Request.exec clen).need := le_rfl
  rw [extractModule, hrequest, haddr]
  refine extractTo_loads env hrun hfind (hclen ▸ hsize) (hclen ▸ hneed)
    (fun log => hrun.tiled.addExec (hrun.fresh hitems)) fun s' log out _ hland => ?_
  rw [placeModule, if_neg hexec, Traced.bind_assoc]
  refine claimStore_ensures env hland.tracks
    (fun havail => by rw [if_neg havail, Traced.bind_assoc]) (fun htracks => ?_)
    fun log₁ havail hstores hgrants htracks => ?_
  · rw [if_pos rfl, Traced.pure_bind]
    exact ensures_pure fun _ => .failed htracks (hland.tiled.silent rfl)
      (.refused (List.mem_append_right _ (List.mem_singleton_self _)))
  refine ensures_past env.prefixClosed fun hA => ?_
  have htiled := hland.tiled.add rfl hstores hgrants
  have hsep := env.separate htiled hA
  have hnode := mem_regions_of_stores hstores
  have hlen : out.length ≤ clen.toNat := hclen ▸ hland.length
  have hdata : (Span.mk b.execAddr.toNat out.length).Inside
      ((Request.exec clen).region b.execAddr) := ⟨le_rfl, Nat.add_le_add_left hlen _⟩
  have hspan : nodeSpan avail (fileName path.bytes).length = (Request.execNode nlen).region avail := by
    rw [← hnlen]
    rfl
  -- the image is apart from the `module_t` behind it in the trace
  have happart : (nodeSpan avail (fileName path.bytes).length).Disjoint
      ⟨b.execAddr.toNat, out.length⟩ := by
    rw [hspan]
    refine Span.Disjoint.symm ((hsep.disjoint ?_ hnode).mono hdata ⟨le_rfl, le_rfl⟩)
    rw [regions_append]
    exact List.mem_append_right _ hland.region
  have howned := hrun.owned.add (List.append_assoc past log _ ▸ hsep)
    (List.pairwise_pair.mpr happart) fun o ho => ?_
  · rw [← List.append_assoc] at howned
    rw [Traced.pure_bind]
    refine addPlaced_loads env htracks htiled howned hland.items hrun.nodes havail ?_ hland.data hne
      ?_ ?_ hland.text ?_
    · exact hname.of_sameOn hin hland.text
        ((hrun.owned.append log).fits hland.separate List.mem_cons_self)
    · rwa [hland.zip]
    · rw [hland.zip]
      exact hland.answer
    · exact (hrun.owned.append log).size_ne_zero hlist hsep
        (by rw [hstores]; exact List.mem_singleton_self _) (by rw [Request.need]; omega)
  · simp only [List.mem_cons, List.not_mem_nil, or_false] at ho
    rcases ho with rfl | rfl
    · refine ⟨(Request.execNode nlen).region avail, ?_, ?_⟩
      · rw [regions_append]
        exact List.mem_append_right _ hnode
      · rw [hspan]
        exact ⟨le_rfl, le_rfl⟩
    · exact ⟨_, mem_regions_append hland.region, hdata⟩

end

/-- **A call of `load_module_from_zip`** for the path at `p`, which lies in the text: `EXEC`
    is loaded when there is no module yet, a module behind the ones that are there. -/
theorem loadModuleFromZip_ensures {p data : Word} {path : CStr}
    (hdata : data = 0 ∨ data = b.execAddr ∧ items = [])
    (hrun : Running b.execAddr m₀ z₀ text list avail items s past)
    (hpath : CStrAt s.mem p path)
    (hin : (Span.mk p.toNat (path.bytes.length + 1)).Inside text) (hlist : list = kicklistAddr) :
    Ensures A (loadModuleFromZip b puff p data avail list) s past
      (Loads b m₀ z₀ ans text list avail items path data s.mem) := by
  refine ensures_past env.prefixClosed fun hpast => ?_
  have htext := hrun.owned.fits (env.separate hrun.tiled hpast) List.mem_cons_self
  have hfit : p.toNat + (path.bytes.length + 1) ≤ 2 ^ 32 := hin.2.trans htext
  have hle := fileName_length path.bytes
  have hstring : string p s.mem = ⟨some path, s.mem, []⟩ := by
    rw [string, Traced.look_run, cstrAt?_eq hpath]
  rw [loadModuleFromZip]
  refine ensures_step env.prefixClosed (onMem_run hstring) fun _ => ?_
  rw [List.map_nil, List.append_nil]
  by_cases hne : fileName path.bytes = []
  · rw [if_pos hne]
    exact ensures_pure fun _ => .failed hrun.tracks hrun.tiled (.noName hne)
  rw [if_neg hne]
  obtain ⟨status, g, hfind, hfindrun⟩ := zipFind_run path s
  refine ensures_step env.prefixClosed hfindrun fun hA => ?_
  have hans := env.find hrun.tracks hrun.tiled.granted hA hfind
  have hrun₁ : Running b.execAddr m₀ z₀ text list avail items { s with z := { s.z with gfh := g } }
      (past ++ [.read (zipFileFind s.mem s.z path).log]) := hrun.event rfl ⟨g, rfl⟩ rfl
  cases hstatus : status with
  | zError =>
    rw [if_pos rfl]
    rw [hstatus] at hans
    exact ensures_pure fun _ => .failed hrun₁.tracks hrun₁.tiled (.notFound hans)
  | zOk =>
    rw [hstatus] at hans
    rw [if_neg (by decide)]
    refine ensures_step env.prefixClosed (uncompressedSize_run _) fun hA' => ?_
    have hsize := env.size hrun₁.tracks hrun₁.tiled.granted hA'
    have hrun₂ : Running b.execAddr m₀ z₀ text list avail items { s with z := { s.z with gfh := g } }
        (past ++ [.read (zipFileFind s.mem s.z path).log] ++
          [.read (zipFileUncompressedSize s.mem { s.z with gfh := g }).log]) :=
      hrun₁.event rfl ⟨g, rfl⟩ rfl
    have hnlen : (BitVec.ofNat 32 (fileName path.bytes).length).toNat =
        (fileName path.bytes).length := by
      rw [BitVec.toNat_ofNat, Nat.mod_eq_of_lt (by omega)]
    have hname := CStrAt.fileName hpath
    have hto : (p + BitVec.ofNat 32 (path.bytes.length - (fileName path.bytes).length)).toNat =
        p.toNat + (path.bytes.length - (fileName path.bytes).length) :=
      toNat_add_ofNat (n := path.bytes.length + 1) (by omega) (by omega)
    have hin' : (Span.mk (p + BitVec.ofNat 32
        (path.bytes.length - (fileName path.bytes).length)).toNat
          ((fileName path.bytes).length + 1)).Inside text := by
      unfold Span.Inside Span.stop at hin ⊢
      dsimp only at hin ⊢
      rw [hto]
      omega
    rcases hdata with rfl | ⟨rfl, hitems⟩
    · exact extractModule_module env hrun₂ rfl hnlen hname hin' hne hans hsize hlist
    · exact extractModule_exec env hrun₂ rfl hnlen hname hin' hne hans hsize hlist hitems

end

end BBoot.Boot
