import BBoot.Common.CString

/-!
# Device trees and their token sequences

A node holds its properties and, after them, its subnodes. `scan` is the walk
of `fdt_find_prop` on tokens instead of memory; `lookup` is what the walk is
for. What the walk finds is the first match along `FdtNode.chain`: its flag
survives the entry into the first subnode.

Results:
* `scan_strip_nop`: `FDT_NOP` tokens do not matter.
* `scan_root`: on a whole tree with distinctly named nodes below the root, the
  walk finds the first match along the chain of the named child.
-/

namespace BBoot.Fdt

/-- A property of a node. -/
structure FdtProp where
  name : CStr
  data : List Byte
deriving DecidableEq

/-- A node of a device tree. -/
inductive FdtNode
  | mk (name : CStr) (props : List FdtProp) (children : List FdtNode)

namespace FdtNode

/-- The name of the node. -/
def name : FdtNode → CStr
  | mk n _ _ => n

/-- Its own properties. -/
def props : FdtNode → List FdtProp
  | mk _ ps _ => ps

/-- Its subnodes. -/
def children : FdtNode → List FdtNode
  | mk _ _ cs => cs

@[simp] theorem props_mk (n : CStr) (ps : List FdtProp) (cs : List FdtNode) :
    (mk n ps cs).props = ps := rfl

@[simp] theorem name_mk (n : CStr) (ps : List FdtProp) (cs : List FdtNode) :
    (mk n ps cs).name = n := rfl

end FdtNode

/-- A token of the structure block. -/
inductive Token
  | beginNode (name : CStr)
  | endNode
  | prop (p : FdtProp)
  | nop
  | fin
deriving DecidableEq

mutual

/-- The tokens of a node. -/
def FdtNode.tokens : FdtNode → List Token
  | .mk n ps cs => .beginNode n :: (ps.map .prop ++ (tokensList cs ++ [.endNode]))

/-- The tokens of sibling nodes, in order. -/
def tokensList : List FdtNode → List Token
  | [] => []
  | c :: cs => c.tokens ++ tokensList cs

end

/-- The property `prop` of the direct child `node` of the root. -/
def lookup (root : FdtNode) (node prop : CStr) : Option FdtProp :=
  (root.children.find? (·.name = node)).bind fun c => c.props.find? (·.name = prop)

mutual

/-- The node, its first subnode, the first subnode of that, and so on. -/
def FdtNode.chain : FdtNode → List FdtNode
  | .mk n ps cs => .mk n ps cs :: firstChain cs

/-- The chain of the first node, if there is one. -/
def firstChain : List FdtNode → List FdtNode
  | [] => []
  | c :: _ => c.chain

end

/-- The first property of that name in a list of nodes. -/
def findProp (prop : CStr) (ns : List FdtNode) : Option FdtProp :=
  ns.findSome? fun n => n.props.find? (·.name = prop)

theorem findProp_eq_none {prop : CStr} {ns : List FdtNode} :
    findProp prop ns = none ↔ ∀ n ∈ ns, ∀ p ∈ n.props, p.name ≠ prop := by
  simp [findProp]

theorem findProp_chain (prop n : CStr) (ps : List FdtProp) (cs : List FdtNode) :
    findProp prop (FdtNode.mk n ps cs).chain =
      (ps.find? (·.name = prop)).or (findProp prop (firstChain cs)) := by
  rw [FdtNode.chain, findProp, List.findSome?_cons]
  cases h : ps.find? (·.name = prop) with
  | none => simp [FdtNode.props, h, findProp]
  | some p => simp [FdtNode.props, h]

/-- The walk on tokens, from a depth and the state of the flag. -/
def scan (node prop : CStr) : List Token → ℤ → Bool → Option FdtProp
  | [], _, _ => none
  | .beginNode n :: ts, d, t => scan node prop ts (d + 1) (t || (d + 1 = 2 && n = node))
  | .endNode :: ts, d, t =>
    if d = 2 ∧ t = true then none
    else if d - 1 < 0 then none
    else scan node prop ts (d - 1) false
  | .prop p :: ts, d, t => if t = true ∧ p.name = prop then some p else scan node prop ts d t
  | .nop :: ts, d, t => scan node prop ts d t
  | .fin :: _, _, _ => none

section Scan

variable (node prop : CStr)

theorem scan_strip_nop (ts : List Token) (d : ℤ) (t : Bool) :
    scan node prop ts d t = scan node prop (ts.filter (· ≠ .nop)) d t := by
  induction ts generalizing d t with
  | nil => rfl
  | cons tok ts ih =>
    cases tok <;> simp only [List.filter_cons, ne_eq, reduceCtorEq, not_false_eq_true, not_true_eq_false,
      decide_true, decide_false, ite_true, Bool.false_eq_true, ite_false, scan, ih]

/-- Outside the target no property is looked at. -/
theorem scan_props_skip (ps : List FdtProp) (ts : List Token) (d : ℤ) :
    scan node prop (ps.map .prop ++ ts) d false = scan node prop ts d false := by
  induction ps with
  | nil => rfl
  | cons p ps ih => simpa [scan] using ih

/-- Inside it the first property of the name is found. -/
theorem scan_props_find (ps : List FdtProp) (ts : List Token) (d : ℤ) :
    scan node prop (ps.map .prop ++ ts) d true =
      (ps.find? (·.name = prop)).or (scan node prop ts d true) := by
  induction ps with
  | nil => rfl
  | cons p ps ih =>
    simp only [List.map_cons, List.cons_append, scan, true_and, List.find?_cons]
    split_ifs with h
    · simp [h]
    · simp [h, ih]

mutual

/-- Below the root's children, with the flag off, a node is passed over. -/
theorem scan_node_skip (c : FdtNode) (ts : List Token) (d : ℤ) (hd : 2 ≤ d) :
    scan node prop (c.tokens ++ ts) d false = scan node prop ts d false := by
  cases c with
  | mk n ps cs =>
    have hflag : (false || (decide (d + 1 = 2) && decide (n = node))) = false := by
      simp [show d + 1 ≠ 2 by omega]
    rw [FdtNode.tokens, List.cons_append, scan, hflag, List.append_assoc, scan_props_skip,
      List.append_assoc, scan_list_skip cs _ (d + 1) (by omega), List.singleton_append, scan,
      if_neg (by simp), if_neg (by omega), add_sub_cancel_right]

theorem scan_list_skip (cs : List FdtNode) (ts : List Token) (d : ℤ) (hd : 2 ≤ d) :
    scan node prop (tokensList cs ++ ts) d false = scan node prop ts d false := by
  cases cs with
  | nil => rfl
  | cons c cs =>
    rw [tokensList, List.append_assoc, scan_node_skip c _ d hd, scan_list_skip cs ts d hd]

end

mutual

/-- A node entered with the flag on is searched along its chain; behind it the
    flag is off. -/
theorem scan_node_chain (c : FdtNode) (ts : List Token) (d : ℤ) (hd : 2 ≤ d) :
    scan node prop (c.tokens ++ ts) d true =
      (findProp prop c.chain).or (scan node prop ts d false) := by
  cases c with
  | mk n ps cs =>
    rw [FdtNode.tokens, List.cons_append, scan, Bool.true_or, List.append_assoc, scan_props_find,
      List.append_assoc, scan_list_chain cs _ (d + 1) (by omega), findProp_chain, Option.or_assoc]
    congr 2
    cases cs <;> simp only [List.singleton_append, scan] <;>
      rw [if_neg (by omega), if_neg (by omega), add_sub_cancel_right]

theorem scan_list_chain (cs : List FdtNode) (ts : List Token) (d : ℤ) (hd : 2 ≤ d) :
    scan node prop (tokensList cs ++ ts) d true =
      (findProp prop (firstChain cs)).or (scan node prop ts d cs.isEmpty) := by
  cases cs with
  | nil => rfl
  | cons c cs =>
    rw [tokensList, List.append_assoc, scan_node_chain c _ d hd, scan_list_skip node prop cs ts d hd]
    rfl

end

/-- A child of the root with another name is passed over. -/
theorem scan_child_other (c : FdtNode) (ts : List Token) (hc : c.name ≠ node) :
    scan node prop (c.tokens ++ ts) 1 false = scan node prop ts 1 false := by
  cases c with
  | mk n ps cs =>
    have hflag : (false || (decide ((1 : ℤ) + 1 = 2) && decide (n = node))) = false := by
      simpa using hc
    rw [FdtNode.tokens, List.cons_append, scan, hflag, List.append_assoc, scan_props_skip,
      List.append_assoc, scan_list_skip node prop cs _ _ (by omega), List.singleton_append, scan,
      if_neg (by simp), if_neg (by omega), add_sub_cancel_right]

/-- The child with the name asked for is searched along its chain. If the chain
    does not have the property, the walk ends there or goes on behind it. -/
theorem scan_child_target (c : FdtNode) (ts : List Token) (hc : c.name = node)
    (hts : scan node prop ts 1 false = none) :
    scan node prop (c.tokens ++ ts) 1 false = findProp prop c.chain := by
  cases c with
  | mk n ps cs =>
    have hflag : (false || (decide ((1 : ℤ) + 1 = 2) && decide (n = node))) = true := by
      simpa using hc
    rw [FdtNode.tokens, List.cons_append, scan, hflag, List.append_assoc, scan_props_find,
      List.append_assoc, scan_list_chain node prop cs _ _ (by omega), findProp_chain]
    have hend : scan node prop ([Token.endNode] ++ ts) (1 + 1) cs.isEmpty = none := by
      rw [List.singleton_append, scan]
      split_ifs with h1 h2
      · rfl
      · omega
      · rw [add_sub_cancel_right]; exact hts
    rw [hend, Option.or_none]

/-- Over the children of the root, the walk finds what the chain of the first
    child of the name has. -/
theorem scan_children (cs : List FdtNode) (ts : List Token)
    (hnodup : (cs.map FdtNode.name).Nodup) (hts : scan node prop ts 1 false = none) :
    scan node prop (tokensList cs ++ ts) 1 false =
      (cs.find? (·.name = node)).bind fun c => findProp prop c.chain := by
  induction cs with
  | nil => simpa [tokensList] using hts
  | cons c cs ih =>
    obtain ⟨hnot, hnodup⟩ := List.nodup_cons.mp hnodup
    rw [tokensList, List.append_assoc, List.find?_cons]
    by_cases hc : c.name = node
    · have hrest : scan node prop (tokensList cs ++ ts) 1 false = none := by
        rw [ih hnodup, List.find?_eq_none.mpr, Option.bind_none]
        intro c' hc' heq
        refine hnot ?_
        rw [hc, ← of_decide_eq_true heq]
        exact List.mem_map_of_mem hc'
      rw [scan_child_target node prop c _ hc hrest]
      simp [hc]
    · rw [scan_child_other node prop c _ hc, ih hnodup]
      simp [hc]

/-- **The walk on a whole tree.** It finds what the first-subnode chain of the
    named child of the root has. -/
theorem scan_root (root : FdtNode) (hnodup : (root.children.map FdtNode.name).Nodup) :
    scan node prop (root.tokens ++ [.fin]) 0 false =
      (root.children.find? (·.name = node)).bind fun c => findProp prop c.chain := by
  cases root with
  | mk n ps cs =>
    have hflag : (false || (decide ((0 : ℤ) + 1 = 2) && decide (n = node))) = false := by simp
    rw [FdtNode.tokens, List.cons_append, scan, hflag, List.append_assoc, scan_props_skip,
      List.append_assoc]
    exact scan_children node prop cs _ hnodup (by simp [scan])

end Scan

end BBoot.Fdt
