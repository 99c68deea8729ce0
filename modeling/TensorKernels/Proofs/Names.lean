import Mathlib.Data.List.Basic
import Mathlib.Data.List.Nodup
import Mathlib.Data.List.Perm.Subperm
import TensorKernels.Layout.Backward
import TensorKernels.Layout.Forward
import TensorKernels.Proofs.Scope

/-!
# Names in kernels

Generated names are built from numbers and fixed words joined by underscores. Numbers hold no
underscore, so the last word of a name can be read off (`lastWord`), and with it the kind of a local
(`localKind`) and, for a partial buffer, the context that writes it (`PartialBuffer.candidate_context`).
Hence names of different nodes, masks and contexts never clash.
-/

set_option autoImplicit false

namespace TensorKernels

/-- Different numbers have different texts. -/
theorem toString_nat_injective {a b : Nat} (h : toString a = toString b) : a = b := by
  have := congrArg (fun s : String => Nat.ofDigitChars 10 s.toList 0) h
  simpa [Nat.toString_eq_ofList_toDigits] using this

/-- The text of a number has no underscore. -/
theorem underscore_not_mem_toString (n : Nat) : '_' ∉ (toString n).toList := by
  simp [Nat.underscore_not_in_toDigits]

/-- The text of a number consists of digits. -/
theorem isDigit_of_mem_toString {n : Nat} {c : Char} (h : c ∈ (toString n).toList) : c.isDigit := by
  rw [Nat.toString_eq_ofList_toDigits, String.toList_ofList] at h
  exact Nat.isDigit_of_mem_toDigits (by decide) (by decide) h

/-- Different nodes have different names. -/
theorem Node.varName_injective {a b : Nat} (h : Node.varName a = Node.varName b) : a = b :=
  toString_nat_injective (String.append_right_inj "v" |>.1 h)

/-- Different masks have different names. -/
theorem Node.maskName_injective {a b : Nat} (h : Node.maskName a = Node.maskName b) : a = b :=
  toString_nat_injective (String.append_right_inj "mask_" |>.1 h)

/-- Outputs of different names have different names. -/
theorem outputName_injective {a b : String} (h : outputName a = outputName b) : a = b :=
  String.append_left_inj "_output" |>.1 h

/-! ## The last word of a name -/

/-- What stands after the last underscore. -/
def lastWord (name : String) : List Char := (name.toList.reverse.takeWhile (· ≠ '_')).reverse

/-- What stands before the last underscore, read backwards. -/
def beforeLastWord (name : String) : List Char := (name.toList.reverse.dropWhile (· ≠ '_')).tail

/-- What is taken up to the first underscore. -/
theorem takeWhile_append_underscore (a b : List Char) (hb : '_' ∉ b) :
    (b ++ '_' :: a).takeWhile (· ≠ '_') = b := by
  rw [List.takeWhile_append_of_pos]
  · simp
  · intro c hc
    rw [decide_eq_true_eq]
    rintro rfl
    exact hb hc

/-- What is left from the first underscore on. -/
theorem dropWhile_append_underscore (a b : List Char) (hb : '_' ∉ b) :
    (b ++ '_' :: a).dropWhile (· ≠ '_') = '_' :: a := by
  rw [List.dropWhile_append_of_pos]
  · simp
  · intro c hc
    rw [decide_eq_true_eq]
    rintro rfl
    exact hb hc

/-- A name that ends in an underscore and a word ends in that word. -/
theorem lastWord_append (a : String) {s : String} {t : List Char} (hs : s.toList = '_' :: t)
    (ht : '_' ∉ t) : lastWord (a ++ s) = t := by
  unfold lastWord
  rw [String.toList_append, hs, List.reverse_append, List.reverse_cons, List.append_assoc,
    List.singleton_append, takeWhile_append_underscore _ _ (by simpa using ht), List.reverse_reverse]

/-- What stands before the last word of a name. -/
theorem beforeLastWord_append (a : String) {s : String} {t : List Char} (hs : s.toList = '_' :: t)
    (ht : '_' ∉ t) : beforeLastWord (a ++ s) = a.toList.reverse := by
  unfold beforeLastWord
  rw [String.toList_append, hs, List.reverse_append, List.reverse_cons, List.append_assoc,
    List.singleton_append, dropWhile_append_underscore _ _ (by simpa using ht), List.tail_cons]

/-- A name without an underscore is one word. -/
theorem lastWord_of_not_mem {s : String} (h : '_' ∉ s.toList) : lastWord s = s.toList := by
  unfold lastWord
  have htake := @List.takeWhile_append_of_pos _ (· ≠ '_') s.toList.reverse []
    (by
      intro c hc
      rw [decide_eq_true_eq]
      rintro rfl
      exact h (by simpa using hc))
  rw [List.append_nil, List.takeWhile_nil, List.append_nil] at htake
  rw [htake, List.reverse_reverse]

/-- The characters of a node's name. -/
theorem toList_varName (id : Nat) : (Node.varName id).toList = 'v' :: (toString id).toList := by
  rw [Node.varName, String.toList_append]
  rfl

/-- A node's name has no underscore. -/
theorem underscore_not_mem_varName (id : Nat) : '_' ∉ (Node.varName id).toList := by
  rw [toList_varName, List.mem_cons, not_or]
  exact ⟨by decide, underscore_not_mem_toString id⟩

/-- The name of a node is one word. -/
theorem lastWord_varName (id : Nat) : lastWord (Node.varName id) = 'v' :: (toString id).toList := by
  rw [lastWord_of_not_mem (underscore_not_mem_varName id), toList_varName]

/-- The name of an accumulator ends in the name of its node. -/
theorem lastWord_gradName (id : Nat) : lastWord (gradName id) = 'v' :: (toString id).toList := by
  have h := lastWord_append "g" (s := "_" ++ Node.varName id) (t := (Node.varName id).toList)
    (by rw [String.toList_append]; rfl) (underscore_not_mem_varName id)
  rw [← String.append_assoc] at h
  rw [← toList_varName]
  exact h

/-- The name of a collector is one word. -/
theorem lastWord_collectorName (k : Nat) :
    lastWord (Layout.collectorName k) = 'g' :: 'l' :: (toString k).toList := by
  have htoList : (Layout.collectorName k).toList = 'g' :: 'l' :: (toString k).toList := by
    rw [Layout.collectorName, String.toList_append]
    rfl
  rw [lastWord_of_not_mem, htoList]
  rw [htoList]
  simp

/-- A name that a kernel reads as `x` is not one that a kernel writes. -/
theorem lastWord_outputName (x : String) : lastWord (outputName x) = "output".toList :=
  lastWord_append x rfl (by decide)

/-- A word is read from the last word of a local's name: positions in rows, columns and loops. -/
def localKind (name : String) : ValueKind :=
  if lastWord name ∈ ["row".toList, "col".toList, "k".toList, "j".toList, "outer".toList,
      "inner".toList] ∨ (lastWord name).head? = some 'f' then .word
  else .scalar

/-- Values of nodes are scalars. -/
theorem localKind_varName (id : Nat) : localKind (Node.varName id) = .scalar := by
  unfold localKind
  rw [lastWord_varName, if_neg]
  simp

/-- Accumulators are scalars. -/
theorem localKind_gradName (id : Nat) : localKind (gradName id) = .scalar := by
  unfold localKind
  rw [lastWord_gradName, if_neg]
  simp

/-- Collectors are scalars. -/
theorem localKind_collectorName (k : Nat) : localKind (Layout.collectorName k) = .scalar := by
  unfold localKind
  rw [lastWord_collectorName, if_neg]
  simp

/-- The kind of a local that is named after a fixed last word. -/
theorem localKind_append (a : String) {s : String} {t : List Char} (hs : s.toList = '_' :: t)
    (ht : '_' ∉ t) : localKind (a ++ s) =
      if t ∈ ["row".toList, "col".toList, "k".toList, "j".toList, "outer".toList, "inner".toList] ∨
        t.head? = some 'f' then .word else .scalar := by
  unfold localKind
  rw [lastWord_append a hs ht]

/-! ## Partial buffers -/

namespace PartialBuffer

/-- The first name that is tried for a partial buffer. -/
theorem candidate_zero (base : String) (context : Nat) :
    candidate base context 0 = "grad_" ++ base ++ ("_k" ++ toString context) := by
  rw [candidate, if_pos rfl, String.append_assoc]

/-- The later names that are tried for a partial buffer. -/
theorem candidate_succ (base : String) (context k : Nat) :
    candidate base context (k + 1) =
      ("grad_" ++ base ++ ("_k" ++ toString context)) ++ ("_" ++ toString (k + 1)) := by
  rw [candidate, if_neg (Nat.succ_ne_zero k)]
  simp only [String.append_assoc]

/-- The first name ends in the number of its context. -/
theorem lastWord_candidate_zero (base : String) (context : Nat) :
    lastWord (candidate base context 0) = 'k' :: (toString context).toList := by
  rw [candidate_zero]
  refine lastWord_append _ (by rw [String.toList_append]; rfl) ?_
  simp

/-- A later name ends in its number. -/
theorem lastWord_candidate_succ (base : String) (context k : Nat) :
    lastWord (candidate base context (k + 1)) = (toString (k + 1)).toList := by
  rw [candidate_succ]
  refine lastWord_append _ (by rw [String.toList_append]; rfl) ?_
  exact underscore_not_mem_toString (k + 1)

/-- A later name is the first one with a number behind it. -/
theorem beforeLastWord_candidate_succ (base : String) (context k : Nat) :
    beforeLastWord (candidate base context (k + 1)) =
      (candidate base context 0).toList.reverse := by
  rw [candidate_succ, candidate_zero]
  refine beforeLastWord_append _ (t := (toString (k + 1)).toList)
    (by rw [String.toList_append]; rfl) ?_
  exact underscore_not_mem_toString (k + 1)

/-- The text of a number has no `k`. -/
theorem k_not_mem_toString (n : Nat) : 'k' ∉ (toString n).toList := by
  intro h
  have := isDigit_of_mem_toString h
  simp at this

/-- The name of a partial buffer tells which context writes it. -/
theorem candidate_context {base base' : String} {c c' k k' : Nat}
    (h : candidate base c k = candidate base' c' k') : c = c' := by
  have hzero : ∀ {b b' : String} {c c' : Nat}, candidate b c 0 = candidate b' c' 0 → c = c' := by
    intro b b' c c' h
    have hw := congrArg lastWord h
    rw [lastWord_candidate_zero, lastWord_candidate_zero, List.cons.injEq] at hw
    exact toString_nat_injective (String.toList_inj.1 hw.2)
  cases k with
  | zero =>
    cases k' with
    | zero => exact hzero h
    | succ k' =>
      have hw := congrArg lastWord h
      rw [lastWord_candidate_zero, lastWord_candidate_succ] at hw
      exact absurd (by rw [← hw]; simp) (k_not_mem_toString (k' + 1))
  | succ k =>
    cases k' with
    | zero =>
      have hw := congrArg lastWord h
      rw [lastWord_candidate_zero, lastWord_candidate_succ] at hw
      exact absurd (by rw [hw]; simp) (k_not_mem_toString (k + 1))
    | succ k' =>
      have hw := congrArg beforeLastWord h
      rw [beforeLastWord_candidate_succ, beforeLastWord_candidate_succ, List.reverse_inj,
        String.toList_inj] at hw
      exact hzero hw

/-- All names that are tried for one buffer are different. -/
theorem candidate_injective {base : String} {c k k' : Nat}
    (h : candidate base c k = candidate base c k') : k = k' := by
  cases k with
  | zero =>
    cases k' with
    | zero => rfl
    | succ k' =>
      have hw := congrArg lastWord h
      rw [lastWord_candidate_zero, lastWord_candidate_succ] at hw
      exact absurd (by rw [← hw]; simp) (k_not_mem_toString (k' + 1))
  | succ k =>
    cases k' with
    | zero =>
      have hw := congrArg lastWord h
      rw [lastWord_candidate_zero, lastWord_candidate_succ] at hw
      exact absurd (by rw [hw]; simp) (k_not_mem_toString (k + 1))
    | succ k' =>
      have hw := congrArg lastWord h
      rw [lastWord_candidate_succ, lastWord_candidate_succ, String.toList_inj] at hw
      exact toString_nat_injective hw

/-- No name of a partial buffer ends like an output. -/
theorem lastWord_candidate_ne_output (base : String) (c k : Nat) :
    lastWord (candidate base c k) ≠ "output".toList := by
  cases k with
  | zero =>
    rw [lastWord_candidate_zero]
    simp
  | succ k =>
    rw [lastWord_candidate_succ]
    intro h
    have hmem : 'o' ∈ (toString (k + 1)).toList := by rw [h]; decide
    have := isDigit_of_mem_toString hmem
    simp at this

/-- No partial buffer is named like an output. -/
theorem candidate_ne_outputName (base x : String) (c k : Nat) : candidate base c k ≠ outputName x := by
  intro h
  have hw := congrArg lastWord h
  rw [lastWord_outputName] at hw
  exact lastWord_candidate_ne_output base c k hw

/-- Names of partial buffers start with `gr`. -/
theorem toList_candidate (base : String) (c k : Nat) :
    ∃ rest, (candidate base c k).toList = 'g' :: 'r' :: rest := by
  cases k with
  | zero =>
    rw [candidate_zero]
    exact ⟨_, by simp [String.toList_append]; rfl⟩
  | succ k =>
    rw [candidate_succ]
    exact ⟨_, by simp [String.toList_append]; rfl⟩

/-- Names of partial buffers start with a `g`. -/
theorem head?_toList_candidate (base : String) (c k : Nat) :
    (candidate base c k).toList.head? = some 'g' := by
  obtain ⟨rest, hrest⟩ := toList_candidate base c k
  rw [hrest]
  rfl

/-- No partial buffer is named like a node. -/
theorem candidate_ne_varName (base : String) (c k id : Nat) :
    candidate base c k ≠ Node.varName id := by
  intro h
  have hw := congrArg (fun s : String => s.toList.head?) h
  simp only [head?_toList_candidate, toList_varName, List.head?_cons] at hw
  cases hw

/-- There is always a free name. -/
theorem freshName_spec (outputs : Bindings) (base : String) (context : Nat) :
    ∃ k, freshName outputs base context = candidate base context k ∧
      outputName (candidate base context k) ∉ outputs.names := by
  unfold freshName
  dsimp only
  cases hfind : ((List.range (outputs.size + 1)).map (candidate base context)).find?
      fun name => !outputs.contains (outputName name) with
  | some name =>
    have hmem := List.mem_of_find?_eq_some hfind
    have hfree := List.find?_some hfind
    obtain ⟨k, -, rfl⟩ := List.mem_map.1 hmem
    refine ⟨k, rfl, ?_⟩
    rw [← Bindings.contains_iff]
    simpa using hfree
  | none =>
    -- more candidates than bindings cannot all be taken
    exfalso
    rw [List.find?_eq_none] at hfind
    have hnodup : ((List.range (outputs.size + 1)).map fun k =>
        outputName (candidate base context k)).Nodup := by
      refine List.Nodup.map ?_ List.nodup_range
      intro k k' h
      exact candidate_injective (outputName_injective h)
    have hsub : ((List.range (outputs.size + 1)).map fun k =>
        outputName (candidate base context k)) ⊆ outputs.names := by
      intro x hx
      obtain ⟨k, hk, rfl⟩ := List.mem_map.1 hx
      rw [← Bindings.contains_iff]
      have := hfind (candidate base context k) (List.mem_map_of_mem hk)
      simpa using this
    have hlen := (List.subperm_of_subset hnodup hsub).length_le
    rw [List.length_map, List.length_range, Bindings.names, List.length_map] at hlen
    unfold Bindings.size at hlen
    omega

end PartialBuffer

/-- No node is named like an output. -/
theorem varName_ne_outputName (id : Nat) (x : String) : Node.varName id ≠ outputName x := by
  intro h
  have hw := congrArg lastWord h
  rw [lastWord_varName, lastWord_outputName] at hw
  simp at hw

end TensorKernels
