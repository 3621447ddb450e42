import Mathlib.Algebra.Ring.Int.Defs
import Mathlib.Tactic.Common
import ScanMatch.Fault

/-! # Computations that only an overflow can stop

A specification of a checked computation says what holds of its answer and that, where there is
no answer, an integer left its range. All other faults are thereby excluded.
-/
namespace ScanMatch.Checked

variable {α β γ : Type}

theorem map_bind (a : Checked α) (f : α → Checked β) (g : β → γ) :
    (a >>= f).map g = a >>= fun x => (f x).map g := by
  cases a <;> rfl

theorem bind_map (a : Checked α) (f : α → β) (g : β → Checked γ) :
    a.map f >>= g = a >>= fun x => g (f x) := by
  cases a <;> rfl

/-- The computation answers a value with the property, unless an integer overflows. -/
def Ensures (a : Checked α) (P : α → Prop) : Prop :=
  match a with
  | .ok x => P x
  | .error f => f = .overflow

@[simp] theorem ensures_ok {x : α} {P : α → Prop} : Ensures (.ok x) P ↔ P x := Iff.rfl

@[simp] theorem ensures_pure {x : α} {P : α → Prop} : Ensures (pure x) P ↔ P x := Iff.rfl

theorem Ensures.of_ok {a : Checked α} {P : α → Prop} (h : Ensures a P) {x : α} (e : a = .ok x) :
    P x := by
  subst e
  exact h

theorem Ensures.of_error {a : Checked α} {P : α → Prop} (h : Ensures a P) {f : Fault}
    (e : a = .error f) : f = .overflow := by
  subst e
  exact h

theorem Ensures.exists_ok {a : Checked α} {P : α → Prop} (h : Ensures a P)
    (ho : a ≠ .error .overflow) : ∃ x, a = .ok x ∧ P x := by
  cases a with
  | ok x => exact ⟨x, rfl, h⟩
  | error f => exact absurd (congrArg Except.error (h.of_error rfl)) ho

theorem Ensures.mono {a : Checked α} {P Q : α → Prop} (h : Ensures a P) (hpq : ∀ x, P x → Q x) :
    Ensures a Q := by
  cases a with
  | ok x => exact hpq x h
  | error f => exact h

/-- As `mono`, where the answer itself may be named. -/
theorem Ensures.imp {a : Checked α} {P Q : α → Prop} (h : Ensures a P)
    (hpq : ∀ x, a = .ok x → P x → Q x) : Ensures a Q := by
  cases a with
  | ok x => exact hpq x rfl h
  | error f => exact h

theorem Ensures.bind {a : Checked α} {f : α → Checked β} {P : α → Prop} {Q : β → Prop}
    (ha : Ensures a P) (hf : ∀ x, P x → Ensures (f x) Q) : Ensures (a >>= f) Q := by
  cases a with
  | ok x => exact hf x ha
  | error e => exact ha

/-- The answer of `a` may be named. -/
theorem Ensures.map {a : Checked α} {f : α → β} {P : α → Prop} {Q : β → Prop} (ha : Ensures a P)
    (hf : ∀ x, a = .ok x → P x → Q (f x)) : Ensures (a.map f) Q := by
  cases a with
  | ok x => exact hf x rfl ha
  | error e => exact ha

theorem ensures_int32 (n : Int) :
    Ensures (int32 n) fun m => m = n ∧ -2147483648 ≤ n ∧ n ≤ 2147483647 := by
  unfold int32
  split
  · next h => exact ⟨rfl, h⟩
  · exact rfl

theorem ensures_int64 (n : Int) : Ensures (int64 n) (· = n) := by
  unfold int64
  split <;> exact rfl

theorem ensures_nat32 (n : Nat) : Ensures (nat32 n) (· = n) := by
  unfold nat32
  split <;> exact rfl

theorem ensures_nat64 (n : Nat) : Ensures (nat64 n) (· = n) := by
  unfold nat64
  split <;> exact rfl

theorem ensures_require {p : Prop} [Decidable p] (f : Fault) (h : p) :
    Ensures (require p f) fun _ => True := by
  simp [require, h]

theorem ensures_floorDiv (a : Int) {b : Int} (h : b ≠ 0) : Ensures (floorDiv a b) (· = a / b) := by
  rw [floorDiv, if_neg h]
  exact (ensures_int32 _).mono fun _ h => h.1

theorem cellSide_of_lt {level : Nat} (h : level < 31) : cellSide level = .ok (2 ^ level : Int) := by
  simp [cellSide, h, Nat.one_shiftLeft]

/-- Level 31 is the only one whose side is negative. -/
theorem ensures_cellSide (level : Nat) :
    Ensures (cellSide level) fun d =>
      level < 31 ∧ d = 2 ^ level ∨ level = 31 ∧ d = -2147483648 := by
  unfold cellSide
  split
  · next h => exact Or.inl ⟨h, by simp [Nat.one_shiftLeft]⟩
  · split
    · next h => exact Or.inr ⟨h, rfl⟩
    · exact rfl

theorem int32_eq_ok {n m : Int} (h : int32 n = .ok m) : m = n :=
  ((ensures_int32 n).of_ok h).1

theorem floorDiv_eq_ok {a b m : Int} (h : floorDiv a b = .ok m) : m = a / b := by
  unfold floorDiv at h
  split at h
  · cases h
  · exact int32_eq_ok h

end ScanMatch.Checked
