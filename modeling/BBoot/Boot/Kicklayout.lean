import BBoot.Boot.Layout
import BBoot.Zip.EndRecord

/-!
# The Kicklayout is loaded and parsed

`boot_aos_zipkick` from the open archive on: the Kicklayout is extracted behind
the archive, its two terminators are stored, and the loop runs on it.

Results:
* `bootLayout_ensures`: what the call ends with, for every archive (`Zipkicked`).
* `bootAosZipkick_ends`: the whole call, which only reads before the archive is open.
-/

namespace BBoot.Boot

open Zip Traced

/-- Why there is no Kicklayout. -/
inductive NoLayout (ans : Answers) (log : List Event) : Prop
  | notFound {g : Word} : ans.find kicklayoutName .zError g → NoLayout ans log
  | notExtracted {g : Word} {out : List Byte} : ans.find kicklayoutName .zOk g →
      ans.extract g ⟨.zError, out⟩ → NoLayout ans log
  | refused {r : Request} {addr : Word} : .claim r addr 0 ∈ log → NoLayout ans log

/-- The bytes `body` of the Kicklayout start with what was extracted. -/
def LayoutBytes (ans : Answers) (len : Word) (body : List Byte) : Prop :=
  body.length = len.toNat ∧ ∃ g out, ans.find kicklayoutName .zOk g ∧ ans.size g len ∧
    ans.extract g ⟨.zOk, out⟩ ∧ out.length ≤ len.toNat ∧ body.take out.length = out

/-- How the first part ends: for a reason, or with the text at `addr` and the loop about to
    look for label `n + 1`. -/
inductive KicklayoutLoaded (execAddr : Word) (m₀ : Mem) (z₀ : ZipT) (ans : Answers) (n : ℕ)
    (addr : Word) : Option (Option (Word × Word)) → Machine → List Event → Prop
  | failed {s : Machine} {log : List Event} : NoLayout ans log → Tracks m₀ z₀ s log →
      (stores log).Sublist (grants log) → KicklayoutLoaded execAddr m₀ z₀ ans n addr (some none) s log
  | done {s : Machine} {log : List Event} {len : Word} {body : List Byte} :
      addr ≠ 0 → LayoutBytes ans len body → stores log = [(.text len, addr)] →
      Remains s.mem ⟨addr.toNat, len.toNat + 2⟩ addr (body ++ [0x0a]) →
      Phase execAddr (n + 1 : ℕ) m₀ z₀ ⟨addr.toNat, len.toNat + 2⟩ (n + 1) []
        ⟨addr, 0, 0, kicklistAddr⟩ s log →
      KicklayoutLoaded execAddr m₀ z₀ ans n addr (some (some (addr, len))) s log

section

variable {A : List Event → Prop} {b : Brd} {puff : Puff} {m₀ : Mem} {z₀ : ZipT} {ans : Answers}
  {s : Machine} {past : List Event}

theorem separate_of_stores_nil (h : stores past = []) : Separate past := by
  have hregions : regions past = [] := by rw [regions, h, List.map_nil]
  refine ⟨?_, ?_⟩
  · rw [hregions]
    exact .nil
  · rw [hregions]
    exact fun r hr => absurd hr List.not_mem_nil

/-- The text is the first range stored to. -/
theorem tiled_text {len k : Word} (hstores : stores past = [(.text len, k)])
    (hgrants : grants past = [(.text len, k)]) : Tiled b.execAddr past kicklistAddr := by
  refine ⟨by rw [hstores, hgrants], ⟨len, k, by rw [hstores]; rfl⟩, Or.inl ?_, ?_⟩
  · rw [execStores, hstores]
    rfl
  · rw [listStores, hstores]
    exact .nil

theorem bytesAt_readBytes (m : Mem) (p : Word) (n : ℕ) : BytesAt m p (readBytes m p n) := by
  rw [BytesAt, readBytes_length]

/-- The two terminators behind a text. -/
theorem terminate_run {m : Mem} {p len : Word} (hfit : p.toNat + (len.toNat + 2) ≤ 2 ^ 32) :
    ∃ m₁ m₂, MemM.write (p + len) [0x0a] m = ⟨some (), m₁, [⟨p + len, 1⟩]⟩ ∧
      MemM.write (p + len + 1) [0] m₁ = ⟨some (), m₂, [⟨p + len + 1, 1⟩]⟩ ∧
      BytesAt m₂ p (readBytes m p len.toNat ++ [0x0a] ++ [0]) ∧
      SameOutside m m₁ [⟨p.toNat, len.toNat + 2⟩] ∧ SameOutside m₁ m₂ [⟨p.toNat, len.toNat + 2⟩] ∧
      (⟨p + len, 1⟩ : Access).InsideOne [⟨p.toNat, len.toNat + 2⟩] ∧
      (⟨p + len + 1, 1⟩ : Access).InsideOne [⟨p.toNat, len.toNat + 2⟩] := by
  have hto : (p + len).toNat = p.toNat + len.toNat := by
    rw [BitVec.toNat_add, Nat.mod_eq_of_lt (by omega)]
  have hto' : (p + len + 1).toNat = p.toNat + len.toNat + 1 := by
    rw [BitVec.toNat_add, hto, show (1 : Word).toNat = 1 from rfl, Nat.mod_eq_of_lt (by omega)]
  have hin (q : Word) (h : p.toNat ≤ q.toNat) (h' : q.toNat + 1 ≤ p.toNat + (len.toNat + 2)) :
      (⟨q, 1⟩ : Access).InsideOne [⟨p.toNat, len.toNat + 2⟩] := by
    refine ⟨?_, _, List.mem_singleton_self _, h, h'⟩
    show q.toNat + 1 ≤ 2 ^ 32
    omega
  have hsame (m : Mem) (q : Word) (b : Byte) (h : (⟨q, 1⟩ : Access).InsideOne
      [⟨p.toNat, len.toNat + 2⟩]) :
      SameOutside m (writeBytes m q [b]) [⟨p.toNat, len.toNat + 2⟩] := by
    refine (sameOutside_writeBytes m q [b] h.1).mono fun r hr => ?_
    obtain rfl := List.mem_singleton.mp hr
    exact h.2
  have hlen : BitVec.ofNat 32 (readBytes m p len.toNat).length = len := by
    rw [readBytes_length, BitVec.ofNat_toNat, BitVec.setWidth_eq]
  have hlen' : p + BitVec.ofNat 32 (readBytes m p len.toNat ++ [(0x0a : Byte)]).length =
      p + len + 1 := by
    rw [List.length_append, List.length_singleton, ofNat_succ, hlen, BitVec.add_assoc]
  have hfit' : p.toNat + ((readBytes m p len.toNat).length + 2) ≤ 2 ^ 32 := by
    rwa [readBytes_length]
  -- the two bytes behind the text, whatever they are
  have hat : BytesAt m p (readBytes m p len.toNat ++ ([m (p + len)] ++ [m (p + len + 1)])) := by
    rw [bytesAt_append, hlen]
    exact ⟨bytesAt_readBytes m p _, rfl⟩
  have hat₁ : BytesAt (writeBytes m (p + len) [0x0a]) p
      ((readBytes m p len.toNat ++ [0x0a]) ++ ([m (p + len + 1)] ++ [])) := by
    rw [← hlen, List.append_nil, List.append_assoc, hlen]
    have h : BytesAt (writeBytes m (p + BitVec.ofNat 32 (readBytes m p len.toNat).length) [0x0a]) p
        (readBytes m p len.toNat ++ ([0x0a] ++ [m (p + len + 1)])) :=
      hat.overwrite rfl hfit'
    rwa [hlen] at h
  have hat₂ : BytesAt (writeBytes (writeBytes m (p + len) [0x0a]) (p + len + 1) [0]) p
      (readBytes m p len.toNat ++ [0x0a] ++ ([0] ++ [])) := by
    rw [← hlen']
    refine hat₁.overwrite rfl ?_
    simp only [List.length_append, List.length_singleton, List.length_nil]
    omega
  have hin₁ := hin (p + len) (by omega) (by omega)
  have hin₂ := hin (p + len + 1) (by omega) (by omega)
  exact ⟨_, _, rfl, rfl, hat₂, hsame _ _ _ hin₁, hsame _ _ _ hin₂, hin₁, hin₂⟩

variable (env : Setting A b puff m₀ z₀ ans)

include env

/-- The terminators of an extracted text `out`. -/
theorem terminate_ensures {k len : Word} {out : List Byte} (n : ℕ) (hne : k ≠ 0)
    (htracks : Tracks m₀ z₀ s past) (hstores : stores past = [(.text len, k)])
    (hgrants : grants past = [(.text len, k)]) (hout : BytesAt s.mem k out)
    (hlen : out.length ≤ len.toNat) (hfind : ans.find kicklayoutName .zOk s.z.gfh)
    (hsize : ans.size s.z.gfh len) (hextract : ans.extract s.z.gfh ⟨.zOk, out⟩) :
    Ensures A (do
        onMem (MemM.write (k + len) [0x0a])
        onMem (MemM.write (k + len + 1) [0])
        pure (some (k, len))) s past (KicklayoutLoaded b.execAddr m₀ z₀ ans n k) := by
  have hregions : regions past = [⟨k.toNat, len.toNat + 2⟩] := by
    rw [regions, hstores]
    rfl
  have htiled : Tiled b.execAddr past kicklistAddr := tiled_text hstores hgrants
  refine ensures_past env.prefixClosed fun hpast => ?_
  have hfit : k.toNat + (len.toNat + 2) ≤ 2 ^ 32 :=
    (env.separate htiled hpast).fits ⟨k.toNat, len.toNat + 2⟩
      (by rw [hregions]; exact List.mem_singleton_self _)
  obtain ⟨m₁, m₂, hrun₁, hrun₂, hat, hsame₁, hsame₂, hin₁, hin₂⟩ := terminate_run (m := s.mem) hfit
  have hinside : ∀ r ∈ [Span.mk k.toNat (len.toNat + 2)], ∃ r' ∈ regions past, r.Inside r' := by
    rw [hregions]
    exact fun r hr => ⟨r, hr, le_rfl, le_rfl⟩
  have htracks₁ := htracks.onMem (List.forall_mem_singleton.mpr fun _ => hin₁) hsame₁ hinside
  have htracks₂ := htracks₁.onMem (List.forall_mem_singleton.mpr fun _ => hin₂) hsame₂
    fun r hr => by
      obtain ⟨r', hr', hrr⟩ := hinside r hr
      exact ⟨r', mem_regions_append hr', hrr⟩
  refine ensures_step env.prefixClosed (onMem_run hrun₁) fun _ => ?_
  refine ensures_step env.prefixClosed (onMem_run hrun₂) fun _ => ensures_pure fun _ => ?_
  refine .done hne ⟨readBytes_length .., _, out, hfind, hsize, hextract, hlen, ?_⟩ ?_
    ⟨hat, le_rfl, ?_, ?_⟩ (.searching ?_ rfl rfl htracks₂ ?_ ?_ ?_)
  · have hread := readBytes_of_bytesAt (bytesAt_readBytes s.mem k len.toNat) (n := out.length)
      (by rwa [readBytes_length])
    exact hread.symm.trans hout
  · rw [stores_append, stores_append, stores_writes, stores_writes, hstores]
    rfl
  · rw [List.length_append, readBytes_length]
    rfl
  · intro b hb
    rw [List.getLast?_concat] at hb
    exact (Option.mem_some_iff.mp hb).symm
  · simp
  · exact (htiled.silent (stores_writes _)).silent (stores_writes _)
  · rw [execStores, stores_append, stores_append, stores_writes, stores_writes, hstores]
    rfl
  · refine ⟨List.pairwise_singleton .., List.forall_mem_singleton.mpr ?_⟩
    refine ⟨_, mem_regions_append (mem_regions_append ?_), le_rfl, le_rfl⟩
    rw [hregions]
    exact List.mem_singleton_self _

/-- The entry of the Kicklayout is extracted behind the archive. -/
theorem extractKicklayout_ensures {addr len : Word} (n : ℕ) (hlen : len = field32 s.mem (s.z.gfh + 24))
    (htracks : Tracks m₀ z₀ s past) (hstores : stores past = []) (hgrants : grants past = [])
    (hfind : ans.find kicklayoutName .zOk s.z.gfh) (hsize : ans.size s.z.gfh len) :
    Ensures A (do
        let kicklayout ← claim b (.text len) addr
        if kicklayout = 0 then pure none
        else do
          let extracted ← zipExtract puff (.text len) kicklayout
          if extracted = .zError then pure none
          else do
            onMem (MemM.write (kicklayout + len) [0x0a])
            onMem (MemM.write (kicklayout + len + 1) [0])
            pure (some (kicklayout, len))) s past
      (KicklayoutLoaded b.execAddr m₀ z₀ ans n addr) := by
  have htracks₁ (ret : Word) : Tracks m₀ z₀ { s with claims := s.claims + 1 }
      (past ++ [.claim (.text len) addr ret]) := htracks.event rfl ⟨_, rfl⟩ rfl
  have hstores₁ (ret : Word) : stores (past ++ [.claim (.text len) addr ret]) = [] := by
    rw [stores_append, hstores]
    rfl
  refine claim_ensures env ?_ fun hne => ?_
  · rw [if_pos rfl]
    refine ensures_pure fun _ => .failed (.refused (List.mem_append_right _
      (List.mem_singleton_self _))) (htracks₁ 0) ?_
    rw [hstores₁]
    exact List.nil_sublist _
  rw [if_neg hne]
  have hgrants₁ : grants (past ++ [.claim (.text len) addr addr]) = [(.text len, addr)] := by
    rw [grants_append, hgrants]
    exact if_neg hne
  refine zipExtract_ensures env (htracks₁ addr) ?_ ?_ (hlen ▸ hsize) ?_
    (fun log hcases hlog hA => ?_) fun x s' log hx htracks₂ hans => ?_
  · rw [hstores₁]
    exact List.nil_sublist _
  · rw [hgrants₁]
    exact List.mem_singleton_self _
  · rw [← hlen, Request.need]
    exact Nat.le_add_right _ _
  · rcases hcases with h | h
    · exact separate_of_stores_nil (by rw [stores_append, hstores₁, h]; rfl)
    · have hstores₂ : stores (past ++ [.claim (.text len) addr addr] ++ log) = [(.text len, addr)] := by
        rw [stores_append, hstores₁, h]
        rfl
      have hgrants₂ : grants (past ++ [.claim (.text len) addr addr] ++ log) = [(.text len, addr)] := by
        rw [grants_append, hgrants₁, hlog]
        rfl
      exact env.separate (tiled_text hstores₂ hgrants₂) hA
  · have hstores₂ : stores (past ++ [.claim (.text len) addr addr] ++ log) =
        if starts x = true then [(.text len, addr)] else [] := by
      rw [stores_append, hstores₁, hx.stores]
      rfl
    have hgrants₂ : grants (past ++ [.claim (.text len) addr addr] ++ log) = [(.text len, addr)] := by
      rw [grants_append, hgrants₁, hx.grants]
      rfl
    cases hok : x.status with
    | zError =>
      rw [if_pos rfl]
      refine ensures_pure fun _ => .failed ?_ htracks₂ ?_
      · obtain ⟨status, out⟩ := x
        obtain rfl : status = .zError := hok
        exact .notExtracted hfind hans
      · rw [hstores₂, hgrants₂]
        split_ifs
        · exact List.Sublist.refl _
        · exact List.nil_sublist _
    | zOk =>
      rw [if_pos (starts_of_ok hok)] at hstores₂
      rw [if_neg (by decide)]
      have hout := (hx.done hok).2
      refine terminate_ensures env n hne htracks₂ hstores₂ hgrants₂ hout (hlen ▸ hx.length) ?_ ?_ ?_
      · rwa [hx.zip]
      · rwa [hx.zip]
      · rw [hx.zip, ← hok]
        exact hans

/-- **The Kicklayout** is found, extracted behind the archive and ended. -/
theorem loadKicklayout_ensures {zipdata ziplen : Word} (n : ℕ) (htracks : Tracks m₀ z₀ s past)
    (hstores : stores past = []) (hgrants : grants past = []) :
    Ensures A (loadKicklayout b puff zipdata ziplen) s past
      (KicklayoutLoaded b.execAddr m₀ z₀ ans n (zipdata + ziplen)) := by
  rw [loadKicklayout]
  obtain ⟨status, g, hfind, hfindrun⟩ := zipFind_run kicklayoutName s
  refine ensures_step env.prefixClosed hfindrun fun hA => ?_
  have hgranted : (stores past).Sublist (grants past) := by
    rw [hstores]
    exact List.nil_sublist _
  have hans := env.find htracks hgranted hA hfind
  have htracks₁ : Tracks m₀ z₀ { s with z := { s.z with gfh := g } }
      (past ++ [.read (zipFileFind s.mem s.z kicklayoutName).log]) := htracks.event rfl ⟨g, rfl⟩ rfl
  have hstores₁ (e : List Access) : stores (past ++ [.read e]) = [] := by
    rw [stores_append, hstores]
    rfl
  cases hstatus : status with
  | zError =>
    rw [if_pos rfl]
    rw [hstatus] at hans
    refine ensures_pure fun _ => .failed (.notFound hans) htracks₁ ?_
    rw [hstores₁]
    exact List.nil_sublist _
  | zOk =>
    rw [hstatus] at hans
    rw [if_neg (by decide)]
    refine ensures_step env.prefixClosed (uncompressedSize_run _) fun hA' => ?_
    refine extractKicklayout_ensures env n rfl (htracks₁.event rfl ⟨g, rfl⟩ rfl) ?_ ?_ hans
      (env.size htracks₁ ?_ hA')
    · rw [stores_append, hstores₁]
      rfl
    · rw [grants_append, grants_append, hgrants]
      rfl
    · rw [hstores₁]
      exact List.nil_sublist _

/-! ## The whole call -/

/-- Lines 115–202: what `boot_aos_zipkick` does with the open archive. -/
def bootLayout (b : Brd) (puff : Puff) (fuel : ℕ) (zipdata ziplen : Word) (config : ℤ) :
    BootM Kick := do
  match ← loadKicklayout b puff zipdata ziplen with
  | none => pure .null
  | some (kicklayout, kicklayoutLen) =>
    layoutLoop b puff config kicklayout kicklayoutLen fuel ⟨kicklayout, 0, 0, kicklistAddr⟩

/-- How the whole call ends: without a Kicklayout, with one too long for an `int`, or as
    the loop does. -/
inductive Zipkicked (execAddr : Word) (m₀ : Mem) (z₀ : ZipT) (ans : Answers) (n fuel : ℕ)
    (addr : Word) : Option Kick → Machine → List Event → Prop
  | noLayout {s : Machine} {log : List Event} : NoLayout ans log → Tracks m₀ z₀ s log →
      (stores log).Sublist (grants log) →
      Zipkicked execAddr m₀ z₀ ans n fuel addr (some .null) s log
  | long {s : Machine} {log : List Event} {len : Word} {body : List Byte} {v : Option Kick} :
      LayoutBytes ans len body → 2 ^ 31 ≤ len.toNat → (v = some .null ∨ v = none ∧ fuel = 0) →
      Tracks m₀ z₀ s log → Tiled execAddr log kicklistAddr →
      Zipkicked execAddr m₀ z₀ ans n fuel addr v s log
  | parsed {s : Machine} {log : List Event} {len : Word} {body : List Byte}
      {lines : List (List Byte)} {broken : Bool} {v : Option Kick} :
      LayoutBytes ans len body → len.toNat < 2 ^ 31 → LinesOf (body ++ [0x0a]) lines broken →
      (stores log).head? = some (.text len, addr) →
      Booted execAddr m₀ z₀ ans ⟨addr.toNat, len.toNat + 2⟩ (pathsAhead (n + 1) [] lines) broken
        (fuel ≤ len.toNat + 1) [] v s log →
      Zipkicked execAddr m₀ z₀ ans n fuel addr v s log

omit env in
/-- A text of `2^31` bytes or more is not parsed: its length is negative as an `int`. -/
theorem layoutLoop_long {k len : Word} (hlong : 2 ^ 31 ≤ len.toNat) (config : ℤ) (fuel : ℕ) :
    layoutLoop b puff config k len (fuel + 1) ⟨k, 0, 0, kicklistAddr⟩ = pure .null := by
  have hin : inText k len k = false := by
    have hneg : len.toInt < 0 := by
      rw [BitVec.toInt_eq_toNat_cond]
      split_ifs
      · omega
      · omega
    have hzero : (k - k).toInt = 0 := by rw [BitVec.sub_self]; rfl
    refine decide_eq_false fun h => ?_
    omega
  rw [layoutLoop, hin, if_neg Bool.false_ne_true, layoutEnd, if_pos rfl]

/-- **The call on an open archive.** -/
theorem bootLayout_ensures {zipdata ziplen : Word} (n fuel : ℕ) (htracks : Tracks m₀ z₀ s past)
    (hstores : stores past = []) (hgrants : grants past = []) :
    Ensures A (bootLayout b puff fuel zipdata ziplen (n + 1 : ℕ)) s past
      (Zipkicked b.execAddr m₀ z₀ ans n fuel (zipdata + ziplen)) := by
  rw [bootLayout]
  refine ensures_bind env.prefixClosed (ensures_conseq
    (loadKicklayout_ensures env n htracks hstores hgrants) ?_)
  intro v s' log _ hloaded
  cases hloaded with
  | failed hwhy htracks' hgranted => exact ensures_pure fun _ => .noLayout hwhy htracks' hgranted
  | @done _ _ len body hne hbody hstores' hremains hphase =>
    show Ensures A (layoutLoop b puff (n + 1 : ℕ) (zipdata + ziplen) len fuel
      ⟨zipdata + ziplen, 0, 0, kicklistAddr⟩) s' log _
    rcases Nat.lt_or_ge len.toNat (2 ^ 31) with hlong | hlong
    · obtain ⟨lines, broken, hlines⟩ := exists_linesOf (body ++ [0x0a])
      refine ensures_conseq (ensures_extends
        (layoutLoop_ensures env rfl hlong hne fuel hphase hremains hlines)) ?_
      rintro v s'' log' - ⟨⟨rest, rfl⟩, hbooted⟩
      refine .parsed hbody hlong hlines ?_ (hbooted.mono fun hshort => ?_)
      · rw [stores_append, hstores']
        rfl
      · rwa [List.length_append, hbody.1] at hshort
    · cases fuel with
      | zero =>
        exact ensures_diverge fun _ => .long hbody hlong (Or.inr ⟨rfl, rfl⟩) hphase.tracks hphase.tiled
      | succ fuel =>
        rw [layoutLoop_long hlong]
        exact ensures_pure fun _ => .long hbody hlong (Or.inl rfl) hphase.tracks hphase.tiled

end

/-! ## Before the archive is open -/

/-- The archive of `len` bytes was opened as `z₀`. -/
structure Opened (m : Mem) (zipdata ziplen len : Word) (z₀ : ZipT) : Prop where
  length : (archiveLen m zipdata ziplen).val = some len
  start : zipdata ≠ 0
  pos : len ≠ 0
  handle : (zipOpenBuffer m ⟨0, 0, 0, 0⟩ zipdata len).val = some (.zOk, z₀)

section

variable {b : Brd} {puff : Puff} {fuel : ℕ} {zipdata ziplen len : Word} {config : ℤ} {s : Machine}
  {z₀ : ZipT}

theorem silent_reads (ls : List (List Access)) : ∀ e ∈ ls.map Event.read, e.silent = true := by
  intro e he
  obtain ⟨l, -, rfl⟩ := List.mem_map.mp he
  rfl

theorem grants_reads (ls : List (List Access)) : grants (ls.map Event.read) = [] := by
  induction ls with
  | nil => rfl
  | cons l ls ih => exact ih

theorem archiveLen_returns (m : Mem) (zipdata ziplen : Word) :
    ∃ len, (archiveLen m zipdata ziplen).val = some len := by
  unfold archiveLen
  split_ifs
  · exact zipFindLen_returns ..
  · exact ⟨_, rfl⟩

theorem zipOpen_run (s : Machine) (zipdata len : Word) {status : ZStatus} {z : ZipT}
    (h : (zipOpenBuffer s.mem ⟨0, 0, 0, 0⟩ zipdata len).val = some (status, z)) :
    zipOpen zipdata len s = ⟨some status, { s with z := z },
      [.read (zipOpenBuffer s.mem ⟨0, 0, 0, 0⟩ zipdata len).log]⟩ := by
  have hrun := onZip_run (s := s) (f := fun m _ => zipOpenBuffer m ⟨0, 0, 0, 0⟩ zipdata len) h
  unfold zipOpen
  rw [Traced.bind_run_some hrun]
  rfl

/-- Once the archive is open, the rest of the call follows. -/
theorem bootAosZipkick_opened (h : Opened s.mem zipdata ziplen len z₀) :
    ∃ ls : List (List Access), bootAosZipkick b puff fuel zipdata ziplen config s =
      ⟨(bootLayout b puff fuel zipdata len config { s with z := z₀ }).val,
        (bootLayout b puff fuel zipdata len config { s with z := z₀ }).state,
        ls.map Event.read ++ (bootLayout b puff fuel zipdata len config { s with z := z₀ }).log⟩ := by
  have hlen := onZip_run (s := s) (f := fun m _ => archiveLen m zipdata ziplen) h.length
  have hopen := zipOpen_run s zipdata len h.handle
  refine ⟨[(archiveLen s.mem zipdata ziplen).log,
    (zipOpenBuffer s.mem ⟨0, 0, 0, 0⟩ zipdata len).log], ?_⟩
  unfold bootAosZipkick
  rw [Traced.bind_run_some hlen, if_neg (not_or.mpr ⟨h.start, h.pos⟩), Traced.bind_run_some hopen]
  rfl

/-- If it is not, `NULL` is returned. -/
theorem bootAosZipkick_unopened (h : ∀ len z₀, ¬ Opened s.mem zipdata ziplen len z₀) :
    ∃ (s' : Machine) (ls : List (List Access)),
      bootAosZipkick b puff fuel zipdata ziplen config s = ⟨some .null, s', ls.map Event.read⟩ ∧
        s'.mem = s.mem := by
  obtain ⟨len, hval⟩ := archiveLen_returns s.mem zipdata ziplen
  have hlen := onZip_run (s := s) (f := fun m _ => archiveLen m zipdata ziplen) hval
  unfold bootAosZipkick
  rw [Traced.bind_run_some hlen]
  by_cases hmissing : zipdata = 0 ∨ len = 0
  · rw [if_pos hmissing]
    exact ⟨s, [_], rfl, rfl⟩
  rw [if_neg hmissing]
  obtain ⟨⟨status, z⟩, hr⟩ := zipOpenBuffer_returns s.mem ⟨0, 0, 0, 0⟩ zipdata len
  have hopen := zipOpen_run s zipdata len hr
  cases status with
  | zOk => exact absurd ⟨hval, (not_or.mp hmissing).1, (not_or.mp hmissing).2, hr⟩ (h len z)
  | zError =>
    rw [Traced.bind_run_some hopen]
    exact ⟨{ s with z := z }, [_, _], rfl, rfl⟩

/-- Labels are counted from 1. -/
theorem exists_label (h : 1 ≤ config) : ∃ n : ℕ, config = (n + 1 : ℕ) :=
  ⟨(config - 1).toNat, by omega⟩

/-- **The whole call**: the archive is not opened and the call only reads, or it ends as
    `Zipkicked` says. -/
theorem bootAosZipkick_ends {A : List Event → Prop} {ans : ZipT → Answers} (n : ℕ)
    (env : ∀ len z₀, Opened s.mem zipdata ziplen len z₀ → Setting A b puff s.mem z₀ (ans z₀))
    (hA : A (bootAosZipkick b puff fuel zipdata ziplen (n + 1 : ℕ) s).log) :
    (∃ ls : List (List Access), (∀ len z₀, ¬ Opened s.mem zipdata ziplen len z₀) ∧
        (bootAosZipkick b puff fuel zipdata ziplen (n + 1 : ℕ) s).val = some .null ∧
        (bootAosZipkick b puff fuel zipdata ziplen (n + 1 : ℕ) s).state.mem = s.mem ∧
        (bootAosZipkick b puff fuel zipdata ziplen (n + 1 : ℕ) s).log = ls.map Event.read) ∨
      ∃ len z₀, Opened s.mem zipdata ziplen len z₀ ∧
        Zipkicked b.execAddr s.mem z₀ (ans z₀) n fuel (zipdata + len)
          (bootAosZipkick b puff fuel zipdata ziplen (n + 1 : ℕ) s).val
          (bootAosZipkick b puff fuel zipdata ziplen (n + 1 : ℕ) s).state
          (bootAosZipkick b puff fuel zipdata ziplen (n + 1 : ℕ) s).log := by
  by_cases hopen : ∃ len z₀, Opened s.mem zipdata ziplen len z₀
  · obtain ⟨len, z₀, hz⟩ := hopen
    obtain ⟨ls, hrun⟩ := @bootAosZipkick_opened b puff fuel zipdata ziplen len (n + 1 : ℕ) s z₀ hz
    rw [hrun] at hA ⊢
    have htracks : Tracks s.mem z₀ { s with z := z₀ } (ls.map Event.read) := by
      have hstart : Tracks s.mem z₀ { s with z := z₀ } [] := .start ⟨_, rfl⟩ rfl
      exact hstart.silent (silent_reads ls) ⟨_, rfl⟩ rfl
    exact Or.inr ⟨len, z₀, hz, bootLayout_ensures (env len z₀ hz) n fuel htracks
      (stores_of_silent (silent_reads ls)) (grants_reads ls) hA⟩
  · have hnone : ∀ len z₀, ¬ Opened s.mem zipdata ziplen len z₀ := fun len z₀ h => hopen ⟨len, z₀, h⟩
    obtain ⟨s', ls, hrun, hmem⟩ :=
      @bootAosZipkick_unopened b puff fuel zipdata ziplen (n + 1 : ℕ) s hnone
    rw [hrun]
    exact Or.inl ⟨ls, hnone, rfl, hmem, rfl⟩

end

end BBoot.Boot
