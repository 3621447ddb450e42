import ScanMatch.Search.Block

/-!
# Frontiers

The blocks still to be looked at, as a leftist heap with a block of greatest bound on top. Main
statements: `toList_merge`, `toList_insert` and `toList_pop?` say what each operation does to
the blocks held, and the `weight_` lemmas what it does to their total weight.
-/
namespace ScanMatch

/-- A heap of blocks. Each node keeps the length of its right spine. -/
inductive Frontier (R : Type) where
  | empty
  | node (rank : Nat) (top : Block R) (left right : Frontier R)
  deriving Repr

namespace Frontier

variable {R : Type}

def rank : Frontier R → Nat
  | empty => 0
  | node rank .. => rank

def size : Frontier R → Nat
  | empty => 0
  | node _ _ left right => left.size + right.size + 1

/-- The blocks, in no particular order. -/
def toList : Frontier R → List (Block R)
  | empty => []
  | node _ top left right => top :: (left.toList ++ right.toList)

def isEmpty : Frontier R → Bool
  | empty => true
  | node .. => false

def weight : Frontier R → Nat
  | empty => 0
  | node _ top left right => top.weight + left.weight + right.weight

/-- The node over two heaps, the one with the longer right spine to the left. -/
def join (top : Block R) (a b : Frontier R) : Frontier R :=
  if b.rank ≤ a.rank then node (b.rank + 1) top a b else node (a.rank + 1) top b a

variable [Scalar R]

def merge : Frontier R → Frontier R → Frontier R
  | empty, b => b
  | a, empty => a
  | node ra ta la pa, node rb tb lb pb =>
    if Bound.order ta.bound tb.bound = .lt then join tb lb (merge (node ra ta la pa) pb)
    else join ta la (merge pa (node rb tb lb pb))
termination_by a b => sizeOf a + sizeOf b

def insert (f : Frontier R) (b : Block R) : Frontier R := merge (node 1 b empty empty) f

/-- The heap with all blocks of a list besides its own. -/
def insertAll (f : Frontier R) (bs : List (Block R)) : Frontier R := bs.foldl insert f

/-- A block of greatest bound, and the heap without it. -/
def pop? : Frontier R → Option (Block R × Frontier R)
  | empty => none
  | node _ top left right => some (top, merge left right)

omit [Scalar R] in
@[simp] theorem toList_join (top : Block R) (a b : Frontier R) :
    (join top a b).toList.Perm (top :: (a.toList ++ b.toList)) := by
  unfold join
  split
  · exact List.Perm.refl _
  · exact List.Perm.cons _ List.perm_append_comm

theorem toList_merge (a b : Frontier R) : (merge a b).toList.Perm (a.toList ++ b.toList) := by
  fun_induction merge a b with
  | case1 b => simp [toList]
  | case2 a _ => simp [toList]
  | case3 ra ta la pa rb tb lb pb _ ih =>
    refine (toList_join _ _ _).trans ?_
    refine ((ih.append_left lb.toList).cons tb).trans ?_
    have h : (tb :: (lb.toList ++ ((node ra ta la pa).toList ++ pb.toList))).Perm
        (tb :: ((node ra ta la pa).toList ++ (lb.toList ++ pb.toList))) :=
      (List.perm_append_comm_assoc _ _ _).cons tb
    exact h.trans List.perm_middle.symm
  | case4 ra ta la pa rb tb lb pb _ ih =>
    refine (toList_join _ _ _).trans ?_
    refine ((ih.append_left la.toList).cons ta).trans ?_
    simp [toList]

theorem toList_insert (f : Frontier R) (b : Block R) :
    (f.insert b).toList.Perm (b :: f.toList) := by
  simpa [insert, toList] using toList_merge (node 1 b empty empty) f

theorem toList_insertAll (f : Frontier R) (bs : List (Block R)) :
    (f.insertAll bs).toList.Perm (bs ++ f.toList) := by
  induction bs generalizing f with
  | nil => exact List.Perm.refl _
  | cons b bs ih =>
    refine (ih (f.insert b)).trans ?_
    refine ((toList_insert f b).append_left bs).trans ?_
    exact List.perm_middle

theorem toList_pop? {f rest : Frontier R} {b : Block R} (h : f.pop? = some (b, rest)) :
    f.toList.Perm (b :: rest.toList) := by
  cases f with
  | empty => simp [pop?] at h
  | node rank top left right =>
    obtain ⟨rfl, rfl⟩ : top = b ∧ merge left right = rest := by simpa [pop?] using h
    exact ((toList_merge left right).symm).cons _

omit [Scalar R] in
theorem length_toList (f : Frontier R) : f.toList.length = f.size := by
  induction f with
  | empty => rfl
  | node rank top left right hl hr => simp [size, toList, hl, hr]

omit [Scalar R] in
theorem weight_eq (f : Frontier R) : f.weight = Block.totalWeight f.toList := by
  induction f with
  | empty => rfl
  | node rank top left right hl hr =>
    simp only [weight, toList, Block.totalWeight, Block.totalWeight_append, hl, hr]
    omega

theorem weight_insertAll (f : Frontier R) (bs : List (Block R)) :
    (f.insertAll bs).weight = Block.totalWeight bs + f.weight := by
  rw [weight_eq, weight_eq, Block.totalWeight_perm (toList_insertAll f bs),
    Block.totalWeight_append]

theorem weight_pop? {f rest : Frontier R} {b : Block R} (h : f.pop? = some (b, rest)) :
    f.weight = b.weight + rest.weight := by
  rw [weight_eq, weight_eq, Block.totalWeight_perm (toList_pop? h), Block.totalWeight]

end Frontier

end ScanMatch
