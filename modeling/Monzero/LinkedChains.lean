import Monzero.HashChain
import Mathlib.Data.List.Chain
import Mathlib.Data.List.Induction
import Mathlib.Data.List.Nodup

/-!
Chains of linked blocks. A block names the block before it, and ids do not collide: two blocks
of two chains with one id are the same block. Chains with the same first block therefore
share a front part and nothing else, and a block that both have is at the same height
in both.
-/
namespace Monzero.LinkedChains

section Common

variable {α : Type*} [DecidableEq α]

/-- The length of the longest common front part of two lists. -/
def commonLength : List α → List α → ℕ
  | x :: xs, y :: ys => if x = y then commonLength xs ys + 1 else 0
  | _, _ => 0

theorem commonLength_le_left (l l' : List α) : commonLength l l' ≤ l.length := by
  induction l generalizing l' with
  | nil => cases l' <;> simp [commonLength]
  | cons x xs ih =>
    cases l' with
    | nil => simp [commonLength]
    | cons y ys =>
      rw [commonLength]
      split
      · exact Nat.succ_le_succ (ih ys)
      · exact Nat.zero_le _

theorem getElem?_eq_of_lt_commonLength {l l' : List α} {i : ℕ} (h : i < commonLength l l') :
    l[i]? = l'[i]? := by
  induction l generalizing l' i with
  | nil => cases l' <;> simp [commonLength] at h
  | cons x xs ih =>
    cases l' with
    | nil => simp [commonLength] at h
    | cons y ys =>
      rw [commonLength] at h
      split at h
      · rename_i hxy
        cases i with
        | zero => rw [hxy, List.getElem?_cons_zero, List.getElem?_cons_zero]
        | succ i =>
          rw [List.getElem?_cons_succ, List.getElem?_cons_succ]
          exact ih (Nat.lt_of_succ_lt_succ h)
      · cases h

theorem lt_commonLength {l l' : List α} {i : ℕ} (hi : i < l.length)
    (h : ∀ k ≤ i, l[k]? = l'[k]?) : i < commonLength l l' := by
  induction l generalizing l' i with
  | nil => cases hi
  | cons x xs ih =>
    cases l' with
    | nil => simpa using h 0 (Nat.zero_le i)
    | cons y ys =>
      have hxy : x = y := by simpa using h 0 (Nat.zero_le i)
      rw [commonLength, if_pos hxy]
      cases i with
      | zero => exact Nat.succ_pos _
      | succ i =>
        refine Nat.succ_lt_succ (ih (Nat.lt_of_succ_lt_succ hi) fun k hk => ?_)
        simpa using h (k + 1) (Nat.succ_le_succ hk)

end Common

/-- A block: its id, and the id of the block before it. -/
structure Link (α : Type*) where
  id : α
  prev : α

/-- Blocks that follow each other, with ids of their own. -/
structure Chain (α : Type*) where
  blocks : List (Link α)
  linked : blocks.IsChain fun x y => y.prev = x.id
  nodup : (blocks.map Link.id).Nodup

namespace Chain

variable {α : Type*}

/-- The ids of the blocks, the first block first. -/
def ids (A : Chain α) : List α := A.blocks.map Link.id

/-- No two blocks of the chains have one id. -/
def CollisionFree (A B : Chain α) : Prop :=
  ∀ x ∈ A.blocks, ∀ y ∈ B.blocks, x.id = y.id → x = y

variable {A B : Chain α}

/-- The blocks above a first one, as rows. -/
def format (first : Link α) : HashChain.Format α (Link α) (Link α) where
  nameOf := Link.id
  parent := Link.prev
  root := first.id
  row _ id b := ⟨id, b.prev⟩
  nameOf_row _ _ _ := rfl

variable [DecidableEq α] {first : Link α} {rest : List (Link α)}

/-- The block with an id. -/
def blockOf (blocks : List (Link α)) (id : α) : Option (Link α) := blocks.find? fun b => b.id = id

theorem blockOf_mem {blocks : List (Link α)}
    (hsame : ∀ b ∈ blocks, ∀ b' ∈ blocks, b.id = b'.id → b = b') {b : Link α} (hb : b ∈ blocks) :
    blockOf blocks b.id = some b := by
  unfold blockOf
  cases hfind : blocks.find? fun b' => b'.id = b.id with
  | none => simpa using List.find?_eq_none.mp hfind b hb
  | some b' =>
    have hid := List.find?_some hfind
    rw [hsame b' (List.mem_of_find?_eq_some hfind) b hb (of_decide_eq_true hid)]

omit [DecidableEq α] in
theorem chain_of_linked {blockOf : α → Option (Link α)}
    (hlinked : (first :: rest).IsChain fun x y => y.prev = x.id)
    (hnamed : ∀ b ∈ rest, blockOf b.id = some b) :
    HashChain.Chain (format first) blockOf rest := by
  induction rest using List.reverseRecOn with
  | nil => exact .nil
  | append_singleton init b ih =>
    rw [← List.cons_append, List.isChain_append, List.getLast?_cons] at hlinked
    obtain ⟨hinit, -, hlast⟩ := hlinked
    refine .add (ih hinit fun b' hb' => hnamed b' (List.mem_append_left _ hb'))
      (hnamed b (by simp)) ((hlast _ rfl b rfl).trans ?_)
    rw [HashChain.Format.top]
    cases init.getLast? <;> rfl

omit [DecidableEq α] in
theorem top_take {i : ℕ} {x : α} (h : ((first :: rest).map Link.id)[i]? = some x) :
    (format first).top (rest.take i) = x := by
  cases i with
  | zero => exact Option.some.inj h
  | succ i =>
    rw [List.map_cons, List.getElem?_cons_succ, List.getElem?_map] at h
    obtain ⟨b, hb, rfl⟩ := Option.map_eq_some_iff.mp h
    rw [List.take_add_one, hb, Option.toList_some, HashChain.top_concat]
    rfl

/-- Two chains with one first block are the same up to a block that both have. -/
theorem CollisionFree.take_eq (hfree : CollisionFree A B) (hfst : A.ids[0]? = B.ids[0]?)
    {i j : ℕ} {x : α} (hA : A.ids[i]? = some x) (hB : B.ids[j]? = some x) :
    A.blocks.take (i + 1) = B.blocks.take (j + 1) := by
  obtain ⟨_ | ⟨first, restA⟩, hlinkA, hnodupA⟩ := A
  · simp [ids] at hA
  obtain ⟨_ | ⟨first', restB⟩, hlinkB, hnodupB⟩ := B
  · simp [ids] at hB
  obtain rfl : first = first' :=
    hfree _ List.mem_cons_self _ List.mem_cons_self (Option.some.inj hfst)
  have hsame : ∀ b ∈ restA ++ restB, ∀ b' ∈ restA ++ restB, b.id = b'.id → b = b' := by
    intro b hb b' hb' hid
    rcases List.mem_append.mp hb with hb | hb <;> rcases List.mem_append.mp hb' with hb' | hb' <;>
      replace hb := List.mem_cons_of_mem first hb <;>
      replace hb' := List.mem_cons_of_mem first hb'
    · exact List.inj_on_of_nodup_map hnodupA hb hb' hid
    · exact hfree b hb b' hb' hid
    · exact (hfree b' hb' b hb hid.symm).symm
    · exact List.inj_on_of_nodup_map hnodupB hb hb' hid
  have hroot : blockOf (restA ++ restB) first.id = none := by
    refine List.find?_eq_none.mpr fun b hb hid => ?_
    have hmem := List.mem_map_of_mem (f := Link.id) hb
    rw [of_decide_eq_true hid, List.map_append, List.mem_append] at hmem
    rcases hmem with hmem | hmem
    · exact (List.nodup_cons.mp hnodupA).1 hmem
    · exact (List.nodup_cons.mp hnodupB).1 hmem
  have hchainA := chain_of_linked hlinkA fun b hb => blockOf_mem hsame (List.mem_append_left _ hb)
  have hchainB := chain_of_linked hlinkB fun b hb => blockOf_mem hsame (List.mem_append_right _ hb)
  rw [List.take_succ_cons, List.take_succ_cons,
    (hchainA.take i).unique hroot (hchainB.take j) ((top_take hA).trans (top_take hB).symm)]

theorem CollisionFree.same_height (hfree : CollisionFree A B) (hfst : A.ids[0]? = B.ids[0]?)
    {i j : ℕ} {x : α} (hA : A.ids[i]? = some x) (hB : B.ids[j]? = some x) :
    i = j ∧ i < commonLength A.ids B.ids := by
  have htake := congrArg (List.map Link.id) (hfree.take_eq hfst hA hB)
  rw [List.map_take, List.map_take] at htake
  have hi := (List.getElem?_eq_some_iff.mp hA).1
  have hj := (List.getElem?_eq_some_iff.mp hB).1
  have hlength := congrArg List.length htake
  rw [List.length_take, List.length_take, min_eq_left hi, min_eq_left hj] at hlength
  refine ⟨by omega, lt_commonLength hi fun k hk => ?_⟩
  calc A.ids[k]? = (A.ids.take (i + 1))[k]? := (List.getElem?_take_of_lt (by omega)).symm
    _ = (B.ids.take (j + 1))[k]? := congrArg (·[k]?) htake
    _ = B.ids[k]? := List.getElem?_take_of_lt (by omega)

end Chain

end Monzero.LinkedChains
