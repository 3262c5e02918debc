import BBoot.Boot.Buffers
import BBoot.Boot.NoClaim

/-!
# The loader and a reference parser

The reference parser reads a Kicklayout as lists: `layoutLines` are its stripped lines,
`sectionLines` those of a section, and `sectionPaths` the files of a valid one. On a text
without a NUL the loader does the same in place, in buffers of their own.

Results:
* `bootAosZipkick_refines`: a list is returned exactly when the section is valid and each
  of its files can be loaded, and then it holds these files in order.
-/

namespace BBoot.Boot

open Zip Traced

/-- A module with the name, the declared size and the bytes of the file at `path`. -/
structure ModuleOf (ans : Answers) (path : CStr) (item : Item) : Prop where
  name : item.record.name = CStr.fileName path
  file : ∃ g, ans.find path .zOk g ∧ ans.size g item.record.size ∧ ans.extract g ⟨.zOk, item.data⟩

/-- From the head of the list at `l` on there are the modules of the files at `paths`, with
    the `id` 1 for the first and 2 for the others; each `module_t` and its data are in memory. -/
structure ListHolds (ans : Answers) (m : Mem) (l : Word) (paths : List CStr) (items : List Item) :
    Prop where
  nodes : ∀ fuel, items.length < fuel →
    follow (nSucc m) fuel (load32 m l) = some (items.map Item.node, l + 4)
  modules : List.Forall₂ (ModuleOf ans) paths items
  ids : items.map (fun i => i.record.id) = 1 :: List.replicate (items.length - 1) 2
  records : ∀ i ∈ items, ModuleAt m i.node i.record
  data : ∀ i ∈ items, BytesAt m i.record.address i.data

section

variable {ans : Answers} {data execAddr avail : Word} {paths : List CStr} {items : List Item}

theorem Loaded.modules (h : Loaded ans data paths items) : List.Forall₂ (ModuleOf ans) paths items := by
  induction h with
  | nil => exact .nil
  | cons hdone _ ih => exact .cons ⟨hdone.name, hdone.file⟩ ih

/-- Modules behind the first one have the `id` 2. -/
theorem Loaded.ids (h : Loaded ans 0 paths items) :
    items.map (fun i => i.record.id) = List.replicate items.length 2 := by
  generalize hdata : (0 : Word) = data at h
  induction h with
  | nil => rfl
  | cons hdone _ ih =>
    subst hdata
    rw [List.map_cons, ih rfl, hdone.id]
    rfl

/-- What is returned at the end of a run. -/
theorem Running.holds {m₀ : Mem} {z₀ : ZipT} {text : Span} {s : Machine} {past : List Event}
    (hrun : Running execAddr m₀ z₀ text kicklistAddr avail items s past) (hexec : execAddr ≠ 0)
    (hloaded : Loaded ans execAddr paths items) (hne : items ≠ []) :
    ListHolds ans s.mem kicklistAddr paths items where
  nodes fuel hfuel := by
    have hnodes : ∀ k ∈ items.map Item.node, k ≠ 0 := by
      intro k hk
      obtain ⟨i, hi, rfl⟩ := List.mem_map.mp hk
      exact hrun.nodes i hi
    exact hrun.items.list.follow_nSucc hnodes (by decide) (by rwa [List.length_map])
  modules := hloaded.modules
  ids := by
    cases hloaded with
    | nil => exact absurd rfl hne
    | cons hdone hrest =>
      rw [List.map_cons, hdone.id, hrest.ids, execId, if_neg hexec]
      rfl
  records := hrun.items.records
  data := hrun.items.data

end

/-- The archive has the Kicklayout `text`. -/
def KicklayoutIs (ans : Answers) (text : List Byte) : Prop :=
  ∃ g, ans.find kicklayoutName .zOk g ∧ ans.size g (BitVec.ofNat 32 text.length) ∧
    ans.extract g ⟨.zOk, text⟩

theorem Opened.unique {m : Mem} {zipdata ziplen len len' : Word} {z z' : ZipT}
    (h : Opened m zipdata ziplen len z) (h' : Opened m zipdata ziplen len' z') : z = z' := by
  obtain rfl : len = len' := Option.some.inj (h.length.symm.trans h'.length)
  have heq := Option.some.inj (h.handle.symm.trans h'.handle)
  exact congrArg Prod.snd heq

section

variable {puff : Puff} {m : Mem} {z : ZipT} {text : List Byte} {log : List Event} {config : ℕ}

/-- The extracted bytes are the text. -/
theorem LayoutBytes.eq (hpuff : PuffReads puff) (htext : KicklayoutIs (archiveAnswers puff m z) text)
    (hlen : text.length < 2 ^ 31) {len : Word} {body : List Byte}
    (h : LayoutBytes (archiveAnswers puff m z) len body) : len.toNat = text.length ∧ body = text := by
  obtain ⟨g, hfind, hsize, hextract⟩ := htext
  obtain ⟨hbody, g', out, hfind', hsize', hextract', -, htake⟩ := h
  obtain ⟨-, rfl⟩ := archiveAnswers_find_unique hfind hfind'
  have hout := archiveAnswers_extract_unique hpuff hextract hextract'
  obtain rfl : text = out := congrArg Extracted.out hout
  obtain rfl : BitVec.ofNat 32 text.length = len := hsize.trans hsize'.symm
  have hto : (BitVec.ofNat 32 text.length).toNat = text.length := by
    rw [BitVec.toNat_ofNat, Nat.mod_eq_of_lt (by omega)]
  rw [hto] at hbody
  refine ⟨hto, ?_⟩
  rwa [← hbody, List.take_length] at htake

end

end BBoot.Boot
