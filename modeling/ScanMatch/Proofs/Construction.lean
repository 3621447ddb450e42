import ScanMatch.Proofs.Levels

/-! # Two constructions of one pyramid

A pyramid made level by level and one made from the base by brute force are the same, unless an
integer overflows in one of the constructions.
-/
namespace ScanMatch.Pyramid

open Checked (Ensures)

variable {S : Type}

theorem level_eq_ok {p : Pyramid S} {k : Nat} {g : Grid} (h : p.levels[k]? = some g) :
    p.level k = .ok g := by
  rw [level, h]

/-- Levels of a base grid, each one coarser than the one before. -/
structure Ascend (base : Grid) (level n : Nat) (gs : List Grid) : Prop where
  length : gs.length = n
  isLevel : ∀ (i : Nat) (g : Grid), gs[i]? = some g → g.IsLevel base (level + i)

theorem Ascend.nil (base : Grid) (level : Nat) : Ascend base level 0 [] := ⟨rfl, by simp⟩

theorem Ascend.cons {base g : Grid} {level n : Nat} {gs : List Grid} (hg : g.IsLevel base level)
    (h : Ascend base (level + 1) n gs) : Ascend base level (n + 1) (g :: gs) := by
  refine ⟨by rw [List.length_cons, h.length], ?_⟩
  intro i g' hi
  cases i with
  | zero =>
    obtain rfl : g = g' := by simpa using hi
    exact hg
  | succ i =>
    rw [show level + (i + 1) = level + 1 + i by omega]
    exact h.isLevel i g' (by simpa using hi)

theorem ensures_decimated (base : Grid) (n : Nat) : ∀ (prev : Grid) (level : Nat),
    prev.IsLevel base level →
    Ensures (decimated base.toFrame prev (level + 1) n) (Ascend base (level + 1) n) := by
  induction n with
  | zero =>
    intro prev level _
    exact Ascend.nil base (level + 1)
  | succ n ih =>
    intro prev level hprev
    refine (Grid.ensures_decimate hprev.summarizes).bind ?_
    intro next hnext
    refine (ih next (level + 1) hnext).bind ?_
    intro rest hrest
    exact Ascend.cons hnext hrest

theorem ensures_windowLevels (base : Grid) (n : Nat) : ∀ level : Nat,
    Ensures (windowLevels base (level + 1) n) (Ascend base (level + 1) n) := by
  induction n with
  | zero =>
    intro level
    exact Ascend.nil base (level + 1)
  | succ n ih =>
    intro level
    refine (Grid.ensures_windowLevel base level.succ_pos).bind ?_
    intro next hnext
    refine (ih (level + 1)).bind ?_
    intro rest hrest
    exact Ascend.cons hnext hrest

/-- What is known of a pyramid of a base grid, however it was made. -/
structure Represents (p : Pyramid S) (base : Grid) (metersPerPixel : S) (n : Nat) : Prop where
  ascend : Ascend base 0 n p.levels.toList
  metersPerPixel : p.metersPerPixel = metersPerPixel

theorem ensures_build (base : Grid) (metersPerPixel : S) {n : Nat} (hn : 1 ≤ n) :
    Ensures (build base metersPerPixel n) (·.Represents base metersPerPixel n) := by
  obtain ⟨n, rfl⟩ : ∃ m, n = m + 1 := ⟨n - 1, by omega⟩
  refine (Checked.ensures_require _ hn).bind fun _ _ => ?_
  refine (ensures_decimated base n base 0 base.isLevel_zero).bind ?_
  intro coarser h
  exact ⟨Ascend.cons base.isLevel_zero h, rfl⟩

theorem ensures_buildReference (base : Grid) (metersPerPixel : S) {n : Nat} (hn : 1 ≤ n) :
    Ensures (buildReference base metersPerPixel n) (·.Represents base metersPerPixel n) := by
  obtain ⟨n, rfl⟩ : ∃ m, n = m + 1 := ⟨n - 1, by omega⟩
  refine (Checked.ensures_require _ hn).bind fun _ _ => ?_
  refine (ensures_windowLevels base n 0).bind ?_
  intro coarser h
  exact ⟨Ascend.cons base.isLevel_zero h, rfl⟩

theorem Represents.exists_level {p : Pyramid S} {base : Grid} {metersPerPixel : S} {n k : Nat}
    (h : p.Represents base metersPerPixel n) (hk : k < n) :
    ∃ g, p.levels[k]? = some g ∧ g.IsLevel base k := by
  have hlt : k < p.levels.toList.length := by rwa [h.ascend.length]
  have hlevel := h.ascend.isLevel k _ (List.getElem?_eq_getElem hlt)
  rw [zero_add] at hlevel
  exact ⟨_, by rw [← Array.getElem?_toList, List.getElem?_eq_getElem hlt], hlevel⟩

/-- Every pyramid there is was made from a base grid, in one of two ways. -/
def Built (p : Pyramid S) : Prop :=
  ∃ base metersPerPixel n,
    build base metersPerPixel n = .ok p ∨ buildReference base metersPerPixel n = .ok p

theorem one_le_of_built {p : Pyramid S} {base : Grid} {metersPerPixel : S} {n : Nat}
    (h : build base metersPerPixel n = .ok p ∨ buildReference base metersPerPixel n = .ok p) :
    1 ≤ n := by
  by_contra hn
  rcases h with h | h <;> simp [build, buildReference, Checked.require, hn, bind, Except.bind] at h

theorem represents_of_built {p : Pyramid S} {base : Grid} {metersPerPixel : S} {n : Nat}
    (h : build base metersPerPixel n = .ok p ∨ buildReference base metersPerPixel n = .ok p) :
    p.Represents base metersPerPixel n := by
  have hn := one_le_of_built h
  rcases h with h | h
  · exact (ensures_build base metersPerPixel hn).of_ok h
  · exact (ensures_buildReference base metersPerPixel hn).of_ok h

theorem Built.ascend {p : Pyramid S} (h : p.Built) :
    ∃ base n, Ascend base 0 n p.levels.toList := by
  obtain ⟨base, metersPerPixel, n, hbuild⟩ := h
  exact ⟨base, n, (represents_of_built hbuild).ascend⟩

theorem Built.summarizes {p : Pyramid S} (h : p.Built) : ∃ base : Grid, ∀ (level : Nat) (g : Grid),
    p.levels[level]? = some g → level < 30 ∧ g.Summarizes base (2 ^ level) := by
  obtain ⟨base, n, hascend⟩ := h.ascend
  refine ⟨base, ?_⟩
  intro level g hg
  have hlevel := hascend.isLevel level g (by rwa [Array.getElem?_toList])
  rw [zero_add] at hlevel
  refine ⟨?_, hlevel.summarizes⟩
  have hframe := hlevel.frame
  split at hframe
  · omega
  · exact ((Frame.ensures_coarse base.toFrame level).of_ok hframe).level_lt

theorem Ascend.unique {base : Grid} {level n : Nat} {gs gs' : List Grid}
    (h : Ascend base level n gs) (h' : Ascend base level n gs') : gs = gs' := by
  apply List.ext_getElem (h.length.trans h'.length.symm)
  intro i hi hi'
  exact (h.isLevel i _ (List.getElem?_eq_getElem hi)).unique
    (h'.isLevel i _ (List.getElem?_eq_getElem hi'))

theorem Represents.unique {p q : Pyramid S} {base : Grid} {metersPerPixel : S} {n : Nat}
    (hp : p.Represents base metersPerPixel n) (hq : q.Represents base metersPerPixel n) :
    p = q := by
  obtain ⟨levels, resolution⟩ := p
  obtain ⟨levels', resolution'⟩ := q
  obtain rfl : levels = levels' := Array.toList_inj.mp (hp.ascend.unique hq.ascend)
  obtain rfl : resolution = resolution' := hp.metersPerPixel.trans hq.metersPerPixel.symm
  rfl

/-- Where no integer overflows, both constructions answer, and they answer the same pyramid. -/
theorem constructions_agree (base : Grid) (metersPerPixel : S) {n : Nat} (hn : 1 ≤ n)
    (hbuild : build base metersPerPixel n ≠ .error .overflow)
    (hreference : buildReference base metersPerPixel n ≠ .error .overflow) :
    ∃ p, build base metersPerPixel n = .ok p ∧ buildReference base metersPerPixel n = .ok p ∧
      p.numLevels = n ∧ p.metersPerPixel = metersPerPixel := by
  obtain ⟨p, hp, hprep⟩ := (ensures_build base metersPerPixel hn).exists_ok hbuild
  obtain ⟨q, hq, hqrep⟩ := (ensures_buildReference base metersPerPixel hn).exists_ok hreference
  obtain rfl := hprep.unique hqrep
  exact ⟨p, hp, hq, hprep.ascend.length, hprep.metersPerPixel⟩

/-- Both constructions over a grid whose origin is aligned with neither of the coarse levels. -/
theorem constructions_agree_unaligned :
    let base := Grid.ofFn ⟨3, 2, -3, 5⟩ fun x y => UInt8.ofNat (40 * x + 7 * y)
    ∃ p : Pyramid Nat, build base 1 3 = .ok p ∧ buildReference base 1 3 = .ok p ∧
      p.numLevels = 3 ∧ p.metersPerPixel = 1 :=
  constructions_agree (Grid.ofFn ⟨3, 2, -3, 5⟩ fun x y => UInt8.ofNat (40 * x + 7 * y)) 1
    (by decide) nofun nofun

end ScanMatch.Pyramid
