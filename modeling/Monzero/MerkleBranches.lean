import Monzero.MergeMiningTag
import Mathlib.Algebra.Ring.Nat

/-!
Branches of the Merkle tree. `tree_branch` follows a leaf up the tree with the loops of
`tree_path` and collects the sibling of each node on the way; `tree_branch_hash` hashes a leaf
with the siblings, on the sides that the path tells. The invariant of the way up is that the
branch so far hashes to the node at the index so far.
-/
namespace Monzero.MerkleBranches

open Primitives MergeMining MergeMiningTag ToyCrypto List

/-- One pair of a level in `tree_branch`; the state is index and path, and the branch. -/
def branchStep (level : List Hash) (i j : ℕ) (s : (ℕ × UInt32) × List Hash) :
    (ℕ × UInt32) × List Hash :=
  (pathStep i j s.1,
    if s.1.1 = i ∨ s.1.1 = i + 1 then
      s.2 ++ [level.getD (if s.1.1 = i then i + 1 else i) nullHash]
    else s.2)

def branchLevel (level : List Hash) (i j cnt : ℕ) (s : (ℕ × UInt32) × List Hash) :
    (ℕ × UInt32) × List Hash :=
  (List.range (cnt - j)).foldl (fun s k => branchStep level (i + 2 * k) (j + k) s) s

variable (E : AuxEnv)

/-- The levels of `tree_branch`, with the last two hashes. -/
def branchLevels : ℕ → List Hash → (ℕ × UInt32) × List Hash →
    List Hash × ((ℕ × UInt32) × List Hash)
  | 0, level, s => (level, s)
  | rounds + 1, level, s =>
      if level.length > 2 then
        branchLevels rounds (hashPairs E level) (branchLevel level 0 0 (level.length / 2) s)
      else (level, s)

/-- `tree_branch`: the branch, whose length is the depth, and the path. -/
def treeBranch (hashes : List Hash) (hash : Hash) : Option (List Hash × UInt32) :=
  let count := hashes.length
  let idx := hashes.idxOf hash
  if count = 0 then none
  else if idx = count then none
  else if count = 1 then some ([], 0)
  else if count = 2 then
    some ([hashes.getD (idx ^^^ 1) nullHash], if idx = 0 then 0 else 1)
  else
    let cnt := treeHashCnt count
    let start := 2 * cnt - count
    let ints := hashes.take start ++ hashPairs E (hashes.drop start)
    let top := branchLevels E cnt ints (branchLevel hashes start start cnt ((idx, 0), []))
    let s := branchStep top.1 0 0 top.2
    some (s.2, s.1.2)

/-! ### One level -/

variable {σ : Type} {n k i j cnt count : ℕ} {s : (ℕ × UInt32) × List Hash} {p : UInt32}
  {hashes : List Hash}

theorem foldl_range_none (f : ℕ → σ → σ) {s : σ} (h : ∀ k, f k s = s) :
    (List.range n).foldl (fun s k => f k s) s = s := by
  induction n with
  | zero => rfl
  | succ n ih => rw [range_succ, foldl_append, ih, foldl_cons, h, foldl_nil]

theorem foldl_range_once (f : ℕ → σ → σ) {s : σ} (hk : k < n)
    (hbefore : ∀ m < k, f m s = s) (hafter : ∀ m, k < m → f m (f k s) = f k s) :
    (List.range n).foldl (fun s k => f k s) s = f k s := by
  have hquiet : ∀ m ≤ k, (List.range m).foldl (fun s k => f k s) s = s := by
    intro m
    induction m with
    | zero => intro _; rfl
    | succ m ih =>
      intro hm
      rw [range_succ, foldl_append, ih (by omega), foldl_cons, hbefore m hm, foldl_nil]
  induction n with
  | zero => omega
  | succ n ih =>
    rw [range_succ, foldl_append, foldl_cons, foldl_nil]
    rcases Nat.lt_or_ge k n with hlt | hge
    · rw [ih hlt, hafter n hlt]
    · obtain rfl : k = n := by omega
      rw [hquiet k (le_refl k)]

theorem branchStep_of_ne {level : List Hash}
    (h : s.1.1 < i ∨ i + 1 < s.1.1) : branchStep level i j s = s := by
  have h1 : s.1.1 ≠ i := by omega
  have h2 : s.1.1 ≠ i + 1 := by omega
  simp [branchStep, pathStep, h1, h2]

theorem index_branchStep (level : List Hash) (j : ℕ)
    (h : s.1.1 = i ∨ s.1.1 = i + 1) : (branchStep level i j s).1.1 = j := by
  rcases h with h | h <;> simp [branchStep, pathStep, h]

/-- Of the pairs of a level only the one with the index acts. The index it leaves is not in
the pairs that follow. -/
theorem branchLevel_eq (level : List Hash)
    (hj : j ≤ i) (hk : j + k < cnt) (h : s.1.1 = i + 2 * k ∨ s.1.1 = i + 2 * k + 1) :
    branchLevel level i j cnt s = branchStep level (i + 2 * k) (j + k) s := by
  refine foldl_range_once (fun k s => branchStep level (i + 2 * k) (j + k) s) (by omega)
    (fun m hm => branchStep_of_ne (by omega)) fun m hm => branchStep_of_ne (Or.inl ?_)
  rw [index_branchStep _ _ h]
  omega

theorem branchLevel_below (level : List Hash) (h : s.1.1 < i) : branchLevel level i j cnt s = s :=
  foldl_range_none (fun k s => branchStep level (i + 2 * k) (j + k) s)
    fun k => branchStep_of_ne (by omega)

theorem fst_branchLevel (level : List Hash) (i j cnt : ℕ) (s : (ℕ × UInt32) × List Hash) :
    (branchLevel level i j cnt s).1 = pathLevel i j cnt s.1 :=
  (foldl_hom Prod.fst fun _ _ => rfl).symm

/-! ### Pairs and branches -/

theorem length_hashPairs (l : List Hash) : (hashPairs E l).length = l.length / 2 := by
  induction l using hashPairs.induct with
  | case1 a b rest ih =>
    rw [hashPairs, length_cons, ih, length_cons, length_cons]
    omega
  | case2 l h =>
    match l with
    | [] => rfl
    | [_] => simp [hashPairs]
    | a :: b :: rest => exact absurd rfl (h a b rest)

theorem getD_hashPairs (l : List Hash) (k : ℕ) (hk : 2 * k + 1 < l.length) :
    (hashPairs E l).getD k nullHash =
      hashPair E (l.getD (2 * k) nullHash) (l.getD (2 * k + 1) nullHash) := by
  induction l using hashPairs.induct generalizing k with
  | case1 a b rest ih =>
    cases k with
    | zero => rfl
    | succ k =>
      rw [length_cons, length_cons] at hk
      exact ih k (by omega)
  | case2 l h =>
    match l with
    | [] => simp at hk
    | [_] => simp at hk
    | a :: b :: rest => exact absurd rfl (h a b rest)

theorem treeBranchHash_append (leaf sibling : Hash) (br : List Hash) (path path' : UInt32)
    (bit : ℕ) (hbit : bit < 2) (hpath : path'.toNat = 2 * path.toNat + bit) :
    treeBranchHash E leaf (br ++ [sibling]) path' =
      if bit = 1 then hashPair E sibling (treeBranchHash E leaf br path)
      else hashPair E (treeBranchHash E leaf br path) sibling := by
  have hfront : ∀ part, ∀ step ∈ br.zipIdx,
      (if path'.toNat / 2 ^ ((br ++ [sibling]).length - step.2 - 1) % 2 = 1
        then hashPair E step.1 part else hashPair E part step.1) =
      if path.toNat / 2 ^ (br.length - step.2 - 1) % 2 = 1
        then hashPair E step.1 part else hashPair E part step.1 := by
    intro part step hstep
    have hlt := snd_lt_of_mem_zipIdx hstep
    have hshift : (br ++ [sibling]).length - step.2 - 1 = br.length - step.2 - 1 + 1 := by
      rw [length_append, length_singleton]
      omega
    rw [hshift, Nat.pow_succ', ← Nat.div_div_eq_div_mul, show path'.toNat / 2 = path.toNat by omega]
  have hlast : path'.toNat / 2 ^ ((br ++ [sibling]).length - br.length - 1) % 2 = bit := by
    rw [length_append, length_singleton, Nat.add_sub_cancel_left, Nat.sub_self,
      Nat.pow_zero, Nat.div_one]
    omega
  rw [treeBranchHash, zipIdx_append, foldl_append, foldl_ext _ _ _ hfront, Nat.zero_add]
  simp only [zipIdx_singleton, foldl_cons, foldl_nil, hlast]
  rfl

/-- The branch so far hashes to the node at the index. -/
structure Leads (leaf : Hash) (level : List Hash) (s : (ℕ × UInt32) × List Hash) : Prop where
  lt : s.1.1 < level.length
  small : s.1.2.toNat < 2 ^ s.2.length
  hash : treeBranchHash E leaf s.2 s.1.2 = level.getD s.1.1 nullHash

variable {E} {leaf : Hash} {level : List Hash} {s : (ℕ × UInt32) × List Hash}

theorem toNat_shiftLeft_one (hp : p.toNat < 2 ^ 31) : (p <<< 1).toNat = 2 * p.toNat := by
  rw [UInt32.toNat_shiftLeft]
  change p.toNat <<< 1 % 2 ^ 32 = _
  rw [Nat.shiftLeft_eq]
  omega

theorem toNat_shiftLeft_one_or (hp : p.toNat < 2 ^ 31) :
    ((p <<< 1) ||| 1).toNat = 2 * p.toNat + 1 := by
  rw [UInt32.toNat_or, toNat_shiftLeft_one hp, UInt32.toNat_one]
  exact (Nat.two_pow_add_eq_or_of_lt (i := 1) (by omega) p.toNat).symm

theorem Leads.up (h : Leads E leaf level s) (hdepth : s.2.length < 31) (j : ℕ)
    (hi : s.1.1 = i ∨ s.1.1 = i + 1) : (branchStep level i j s).2.length = s.2.length + 1 ∧
      (branchStep level i j s).1.2.toNat < 2 ^ (s.2.length + 1) ∧
      treeBranchHash E leaf (branchStep level i j s).2 (branchStep level i j s).1.2 =
        hashPair E (level.getD i nullHash) (level.getD (i + 1) nullHash) := by
  obtain ⟨⟨idx, p⟩, br⟩ := s
  obtain ⟨-, hsmall, hhash⟩ := h
  dsimp only at hdepth hi hsmall hhash ⊢
  have hp : p.toNat < 2 ^ 31 :=
    lt_of_lt_of_le hsmall (Nat.pow_le_pow_right (by omega) (by omega))
  rw [Nat.pow_succ]
  rcases hi with rfl | rfl
  · have hstep : branchStep level idx j ((idx, p), br) =
        ((j, p <<< 1), br ++ [level.getD (idx + 1) nullHash]) := by
      simp [branchStep, pathStep]
    rw [hstep]
    refine ⟨length_append, ?_, ?_⟩
    · rw [toNat_shiftLeft_one hp]
      omega
    · rw [treeBranchHash_append E leaf _ br p _ 0 (by omega) (toNat_shiftLeft_one hp), hhash]
      rfl
  · have hstep : branchStep level i j ((i + 1, p), br) =
        ((j, (p <<< 1) ||| 1), br ++ [level.getD i nullHash]) := by
      simp [branchStep, pathStep]
    rw [hstep]
    refine ⟨length_append, ?_, ?_⟩
    · rw [toNat_shiftLeft_one_or hp]
      omega
    · rw [treeBranchHash_append E leaf _ br p _ 1 (by omega) (toNat_shiftLeft_one_or hp), hhash]
      rfl

theorem Leads.level_up (h : Leads E leaf level s) (hdepth : s.2.length < 31) {m : ℕ}
    (hlevel : level.length = 2 * m) :
    Leads E leaf (hashPairs E level) (branchLevel level 0 0 (level.length / 2) s) ∧
      (branchLevel level 0 0 (level.length / 2) s).2.length = s.2.length + 1 := by
  have hlt := h.lt
  have hpair : s.1.1 = 0 + 2 * (s.1.1 / 2) ∨ s.1.1 = 0 + 2 * (s.1.1 / 2) + 1 := by omega
  obtain ⟨hlen, hsmall, hhash⟩ := h.up hdepth (0 + s.1.1 / 2) hpair
  rw [branchLevel_eq level (le_refl 0) (by omega) hpair]
  have hidx := index_branchStep level (0 + s.1.1 / 2) hpair
  rw [Nat.zero_add, Nat.zero_add] at *
  refine ⟨⟨?_, by rwa [hlen], ?_⟩, hlen⟩
  · rw [hidx, length_hashPairs]
    omega
  · rw [hidx, hhash, getD_hashPairs E level _ (by omega)]

theorem Leads.levels_up (m rounds : ℕ) (hm : m ≤ rounds) (h : Leads E leaf level s)
    (hlevel : level.length = 2 ^ (m + 1)) (hdepth : s.2.length + m ≤ 30) :
    (branchLevels E rounds level s).1.length = 2 ∧ (branchLevels E rounds level s).2.2.length ≤ 30 ∧
      Leads E leaf (branchLevels E rounds level s).1 (branchLevels E rounds level s).2 := by
  induction m generalizing rounds level s with
  | zero =>
    have hstop : branchLevels E rounds level s = (level, s) := by
      cases rounds with
      | zero => rfl
      | succ rounds => rw [branchLevels, if_neg (by rw [hlevel]; decide)]
    rw [hstop]
    exact ⟨hlevel, by omega, h⟩
  | succ m ih =>
    obtain ⟨rounds, rfl⟩ : ∃ r, rounds = r + 1 := ⟨rounds - 1, by omega⟩
    rw [Nat.pow_succ'] at hlevel
    have hpos := Nat.two_pow_pos m
    obtain ⟨hup, hlen⟩ := h.level_up (by omega) hlevel
    rw [branchLevels, if_pos (by rw [hlevel, Nat.pow_succ]; omega)]
    exact ih rounds (by omega) hup (by rw [length_hashPairs, hlevel]; omega) (by omega)

theorem fst_branchLevels (rounds : ℕ) (level : List Hash) (s : (ℕ × UInt32) × List Hash) :
    (branchLevels E rounds level s).1 = hashLevels E rounds level ∧
      (branchLevels E rounds level s).2.1 = pathLevels rounds level.length s.1 := by
  induction rounds generalizing level s with
  | zero => exact ⟨rfl, rfl⟩
  | succ rounds ih =>
    rw [branchLevels, hashLevels, pathLevels]
    split
    · have h := ih (hashPairs E level) (branchLevel level 0 0 (level.length / 2) s)
      rwa [length_hashPairs, fst_branchLevel] at h
    · exact ⟨rfl, rfl⟩

/-! ### The tree -/

theorem growPow_spec (rounds a : ℕ) (ha : 2 ^ a < count) (hrounds : count ≤ 2 ^ (a + 1) + rounds) :
    ∃ b, growPow count rounds (2 ^ (a + 1)) = 2 ^ (b + 1) ∧ 2 ^ b < count ∧
      count ≤ 2 ^ (b + 1) := by
  induction rounds generalizing a with
  | zero => exact ⟨a, rfl, ha, hrounds⟩
  | succ rounds ih =>
    rw [growPow]
    split
    case isTrue hlt =>
      rw [← Nat.pow_succ']
      have hpos := Nat.two_pow_pos (a + 1)
      exact ih (a + 1) hlt (by rw [Nat.pow_succ 2 (a + 1)]; omega)
    case isFalse hge => exact ⟨a, rfl, ha, Nat.le_of_not_lt hge⟩

theorem treeHashCnt_spec (h : 3 ≤ count) :
    ∃ b, treeHashCnt count = 2 ^ b ∧ 1 ≤ b ∧ 2 ^ b < count ∧ count ≤ 2 ^ (b + 1) := by
  obtain ⟨b, hgrow, hlt, hle⟩ := growPow_spec count 0 (by omega : 2 ^ 0 < count) (by omega)
  refine ⟨b, ?_, ?_, hlt, hle⟩
  · rw [treeHashCnt, show (2 : ℕ) = 2 ^ (0 + 1) from rfl, hgrow]
    exact Nat.mul_div_cancel _ (by omega)
  · cases b with
    | zero => omega
    | succ b => omega

theorem Leads.first_level {b idx : ℕ} (start : ℕ) (hstart : start + hashes.length = 2 ^ (b + 1))
    (hlt : 2 ^ b < hashes.length) (hidx : idx < hashes.length) :
    (hashes.take start ++ hashPairs E (hashes.drop start)).length = 2 ^ b ∧
      Leads E (hashes.getD idx nullHash) (hashes.take start ++ hashPairs E (hashes.drop start))
        (branchLevel hashes start start (2 ^ b) ((idx, 0), [])) ∧
      (branchLevel hashes start start (2 ^ b) ((idx, 0), [])).2.length ≤ 1 := by
  rw [Nat.pow_succ] at hstart
  have hlen : (hashes.take start ++ hashPairs E (hashes.drop start)).length = 2 ^ b := by
    rw [length_append, length_take, length_hashPairs, length_drop]
    omega
  have htake : (hashes.take start).length = start := by
    rw [length_take]
    omega
  refine ⟨hlen, ?_⟩
  rcases Nat.lt_or_ge idx start with hbelow | hpaired
  · rw [branchLevel_below hashes hbelow]
    refine ⟨⟨by rw [hlen]; dsimp only; omega, Nat.one_pos, ?_⟩, Nat.zero_le 1⟩
    simp only [getD_eq_getElem?_getD]
    rw [getElem?_append_left (by omega), getElem?_take_of_lt hbelow]
    rfl
  · have hpair : idx = start + 2 * ((idx - start) / 2) ∨
        idx = start + 2 * ((idx - start) / 2) + 1 := by omega
    have hleaf : Leads E (hashes.getD idx nullHash) hashes ((idx, 0), []) :=
      ⟨hidx, Nat.one_pos, rfl⟩
    obtain ⟨hdepth, hsmall, hhash⟩ :=
      hleaf.up (Nat.zero_lt_succ _) (start + (idx - start) / 2) hpair
    have hindex := index_branchStep (s := ((idx, 0), [])) hashes (start + (idx - start) / 2) hpair
    rw [branchLevel_eq hashes (le_refl start) (by omega) hpair]
    refine ⟨⟨?_, by rwa [hdepth], ?_⟩, by rw [hdepth]; exact le_refl 1⟩
    · rw [hindex, hlen]
      omega
    · have hright (k : ℕ) : (hashes.take start ++ hashPairs E (hashes.drop start)).getD (start + k)
          nullHash = (hashPairs E (hashes.drop start)).getD k nullHash := by
        rw [getD_eq_getElem?_getD, getElem?_append_right (by omega), htake,
          Nat.add_sub_cancel_left, getD_eq_getElem?_getD]
      rw [hindex, hhash, hright, getD_hashPairs E _ _ (by rw [length_drop]; omega)]
      simp only [getD_eq_getElem?_getD, getElem?_drop, Nat.add_assoc]

theorem treeHash_eq (h : 3 ≤ hashes.length) :
    treeHash E hashes = (hashPairs E (hashLevels E (treeHashCnt hashes.length)
      (hashes.take (2 * treeHashCnt hashes.length - hashes.length) ++
        hashPairs E (hashes.drop (2 * treeHashCnt hashes.length - hashes.length))))).getD 0
          nullHash := by
  match hashes with
  | [] => simp at h
  | [_] => simp at h
  | [_, _] => simp at h
  | a :: b :: c :: rest =>
    rw [treeHash]
    · exact if_neg (by rw [length_cons, length_cons, length_cons]; omega)
    · simp
    · simp

theorem branch_verifies (hcount : 3 ≤ hashes.length)
    (hlim : hashes.length ≤ 2 ^ 28) (hmem : leaf ∈ hashes) :
    ∃ br path, treeBranch E hashes leaf = some (br, path) ∧
      treePath hashes.length (hashes.idxOf leaf) = some path ∧
      treeBranchHash E leaf br path = treeHash E hashes := by
  obtain ⟨b, hcnt, hb, hlt, hle⟩ := treeHashCnt_spec hcount
  have hb' : b < 28 := (Nat.pow_lt_pow_iff_right (by omega)).mp (lt_of_lt_of_le hlt hlim)
  have hidx := idxOf_lt_length_of_mem hmem
  have hleaf : hashes.getD (hashes.idxOf leaf) nullHash = leaf := by
    simp [getD_eq_getElem?_getD, getElem?_eq_getElem hidx]
  obtain ⟨hlen, hfst, hdepth⟩ := Leads.first_level (E := E) (2 * 2 ^ b - hashes.length)
    (by rw [Nat.pow_succ] at hle ⊢; omega) hlt hidx
  rw [hleaf] at hfst
  obtain ⟨htwo, hdepth, hlast⟩ := hfst.levels_up (b - 1) (2 ^ b)
    (by have := Nat.lt_two_pow_self (n := b); omega)
    (by rw [hlen, Nat.sub_add_cancel hb]) (by omega)
  have hone := hlast.lt
  obtain ⟨-, -, hroot⟩ := hlast.up (i := 0) (by omega) 0 (by omega)
  obtain ⟨hlevels, hpath⟩ := fst_branchLevels (E := E) (2 ^ b)
    (hashes.take (2 * 2 ^ b - hashes.length) ++
      hashPairs E (hashes.drop (2 * 2 ^ b - hashes.length)))
    (branchLevel hashes (2 * 2 ^ b - hashes.length) (2 * 2 ^ b - hashes.length) (2 ^ b)
      ((hashes.idxOf leaf, 0), []))
  rw [hlen, fst_branchLevel] at hpath
  refine ⟨_, _, ?_, ?_, hroot.trans ?_⟩
  · simp only [treeBranch, hcnt]
    rw [if_neg (by omega), if_neg (by omega), if_neg (by omega), if_neg (by omega)]
  · simp only [treePath, hcnt, branchStep, pathStep, hpath, apply_ite Prod.snd]
    rw [if_neg (by omega), if_neg (by omega), if_neg (by omega)]
  · rw [treeHash_eq hcount, hcnt, getD_hashPairs E _ 0 (by rw [← hlevels, htwo]; omega), hlevels]

/-- For every leaf of a tree with up to `2 ^ 28` leaves, the branch that `tree_branch` finds
hashes to the root, along the path of the first leaf with that value. -/
theorem merkle_branches_verify (E : AuxEnv) (hashes : List Hash) (hlimit : hashes.length ≤ 2 ^ 28)
    (leaf : Hash) (hmem : leaf ∈ hashes) :
    ∃ branch path, treeBranch E hashes leaf = some (branch, path) ∧
      treePath hashes.length (hashes.idxOf leaf) = some path ∧
      treeBranchHash E leaf branch path = treeHash E hashes := by
  match hashes with
  | [] => simp at hmem
  | [a] =>
    obtain rfl := mem_singleton.mp hmem
    exact ⟨[], 0, by simp [treeBranch], by simp [treePath], rfl⟩
  | [a, b] =>
    by_cases hfirst : a = leaf
    · subst hfirst
      exact ⟨[b], 0, by simp [treeBranch], by simp [treePath],
        by simp [treeBranchHash, treeHash, hashPairs]⟩
    · obtain rfl : leaf = b := by
        rcases mem_pair.mp hmem with rfl | h
        · exact absurd rfl hfirst
        · exact h
      have hidx : [a, leaf].idxOf leaf = 1 := by
        simp [hfirst]
      exact ⟨[a], 1, by simp [treeBranch, hidx], by simp [treePath, hidx],
        by simp [treeBranchHash, treeHash, hashPairs]⟩
  | a :: b :: c :: rest =>
    exact branch_verifies (by simp) hlimit hmem

/-- Of five leaves the last two are paired first; the fourth then goes up on the left and twice
on the right. -/
theorem merkle_branches_verify_fourth :
    ∃ branch, treeBranch (prefixEnv []) ([1, 2, 3, 4, 5].map keyOfNat) (keyOfNat 4) =
        some (branch, 3) ∧
      treeBranchHash (prefixEnv []) (keyOfNat 4) branch 3 =
        treeHash (prefixEnv []) ([1, 2, 3, 4, 5].map keyOfNat) := by
  obtain ⟨branch, path, hbranch, hpath, hroot⟩ := merkle_branches_verify (prefixEnv [])
    ([1, 2, 3, 4, 5].map keyOfNat) (by decide) (keyOfNat 4) (by decide)
  have hthree : treePath ([1, 2, 3, 4, 5].map keyOfNat).length
      (([1, 2, 3, 4, 5].map keyOfNat).idxOf (keyOfNat 4)) = some 3 := by
    decide +kernel
  obtain rfl : 3 = path := Option.some.inj (hthree.symm.trans hpath)
  exact ⟨branch, hbranch, hroot⟩

/-! ### Binding -/

/-- The strings that `tree_branch_hash` hashes on the way up, whatever decides the sides. -/
def hashedStrings (E : AuxEnv) (right : ℕ → Bool) : Hash → List (Hash × ℕ) → List (List UInt8)
  | _, [] => []
  | part, (sibling, i) :: rest =>
      let string := if right i then sibling.bytes ++ part.bytes else part.bytes ++ sibling.bytes
      string :: hashedStrings E right (E.fastHash string) rest

/-- Two strings at the same step of two ways that differ and have the same hash. -/
def CollidesAt (E : AuxEnv) (strings strings' : List (List UInt8)) : Prop :=
  ∃ e ∈ strings.zip strings', e.1 ≠ e.2 ∧ E.fastHash e.1 = E.fastHash e.2

theorem hashPair_sides (right : Bool) (sibling part : Hash) :
    (if right then hashPair E sibling part else hashPair E part sibling) =
      E.fastHash (if right then sibling.bytes ++ part.bytes else part.bytes ++ sibling.bytes) := by
  cases right <;> rfl

theorem sides_inj {right : Bool} {a b c d : Hash}
    (h : (if right then a.bytes ++ b.bytes else b.bytes ++ a.bytes) =
      if right then c.bytes ++ d.bytes else d.bytes ++ c.bytes) : b = d ∧ a = c := by
  cases right with
  | true =>
    obtain ⟨hfst, hsnd⟩ := append_inj h (by simp)
    exact ⟨Bytes.Blob.ext hsnd, Bytes.Blob.ext hfst⟩
  | false =>
    obtain ⟨hfst, hsnd⟩ := append_inj h (by simp)
    exact ⟨Bytes.Blob.ext hfst, Bytes.Blob.ext hsnd⟩

/-- Along one path the result determines the leaf and the branch, unless two of the strings that
were hashed collide. -/
theorem foldl_hashPair_inj (right : ℕ → Bool) (n : ℕ) {leaf leaf' : Hash} {br br' : List Hash}
    (hlen : br.length = br'.length)
    (heq : (br.zipIdx n).foldl (fun part step =>
        if right step.2 then hashPair E step.1 part else hashPair E part step.1) leaf =
      (br'.zipIdx n).foldl (fun part step =>
        if right step.2 then hashPair E step.1 part else hashPair E part step.1) leaf') :
    (leaf = leaf' ∧ br = br') ∨
      CollidesAt E (hashedStrings E right leaf (br.zipIdx n))
        (hashedStrings E right leaf' (br'.zipIdx n)) := by
  induction br generalizing br' leaf leaf' n with
  | nil =>
    obtain rfl := length_eq_zero_iff.mp hlen.symm
    exact Or.inl ⟨heq, rfl⟩
  | cons sibling br ih =>
    obtain ⟨sibling', br', rfl⟩ := exists_cons_of_length_eq_add_one hlen.symm
    rw [zipIdx_cons, zipIdx_cons, foldl_cons, foldl_cons, hashPair_sides, hashPair_sides] at heq
    rw [zipIdx_cons, zipIdx_cons, hashedStrings, hashedStrings]
    rcases ih (n + 1) (Nat.succ.inj hlen) heq with ⟨hpart, rfl⟩ | ⟨e, he, hcollide⟩
    · by_cases hstring : (if right n then sibling.bytes ++ leaf.bytes
          else leaf.bytes ++ sibling.bytes) =
        if right n then sibling'.bytes ++ leaf'.bytes else leaf'.bytes ++ sibling'.bytes
      · obtain ⟨rfl, rfl⟩ := sides_inj hstring
        exact Or.inl ⟨rfl, rfl⟩
      · exact Or.inr ⟨_, mem_cons_self, hstring, hpart⟩
    · exact Or.inr ⟨e, mem_cons_of_mem _ he, hcollide⟩

def isBranchInTree (E : AuxEnv) (hash root : Hash) (branch : List Hash) (path : UInt32) : Bool :=
  treeBranchHash E hash branch path = root

/-- The strings that `tree_branch_hash` hashes for a leaf, a branch and a path. -/
def branchStrings (E : AuxEnv) (leaf : Hash) (branch : List Hash) (path : UInt32) :
    List (List UInt8) :=
  hashedStrings E (fun i => path.toNat / 2 ^ (branch.length - i - 1) % 2 = 1) leaf branch.zipIdx

/-- Along a path of some depth one leaf is in a tree, with one branch, unless two of the strings
that were hashed to check the branches collide. -/
theorem merkle_branch_binding (E : AuxEnv) (root : Hash) (path : UInt32) (leaf leaf' : Hash)
    (branch branch' : List Hash) (hlen : branch.length = branch'.length)
    (h : isBranchInTree E leaf root branch path = true)
    (h' : isBranchInTree E leaf' root branch' path = true) :
    (leaf = leaf' ∧ branch = branch') ∨
      CollidesAt E (branchStrings E leaf branch path) (branchStrings E leaf' branch' path) := by
  have hroot := (of_decide_eq_true h).trans (of_decide_eq_true h').symm
  rw [treeBranchHash, treeBranchHash, ← hlen] at hroot
  rw [branchStrings, branchStrings, ← hlen]
  refine foldl_hashPair_inj _ 0 hlen ?_
  simp only [decide_eq_true_eq]
  exact hroot

/-- Hashes that keep the first bytes lose the siblings on the right: of two branches that differ at
the second step, the strings of that step collide and those of the first do not. -/
theorem merkle_branch_binding_collision :
    CollidesAt (prefixEnv []) (branchStrings (prefixEnv []) (keyOfNat 1) [keyOfNat 2, keyOfNat 3] 0)
        (branchStrings (prefixEnv []) (keyOfNat 1) [keyOfNat 2, keyOfNat 4] 0) ∧
      ¬CollidesAt (prefixEnv []) (branchStrings (prefixEnv []) (keyOfNat 1) [keyOfNat 2] 0)
        (branchStrings (prefixEnv []) (keyOfNat 1) [keyOfNat 2] 0) := by
  refine ⟨?_, ?_⟩
  · exact (merkle_branch_binding (prefixEnv []) (keyOfNat 1) 0 (keyOfNat 1) (keyOfNat 1)
      [keyOfNat 2, keyOfNat 3] [keyOfNat 2, keyOfNat 4] rfl (by decide +kernel)
      (by decide +kernel)).resolve_left (by decide +kernel)
  · rintro ⟨e, he, hne, -⟩
    rw [mem_singleton.mp he] at hne
    exact hne rfl

end Monzero.MerkleBranches
