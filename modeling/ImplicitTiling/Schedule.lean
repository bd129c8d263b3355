import ImplicitTiling.Error

/-!
# Rank schedules

The levels that are served, from `minLevel` to `maxLevel`, are cut into ranks of `subtreeLevels`
levels each. Only tiles on the first level of a rank, the rank roots, have a subtree of their own.
-/

namespace ImplicitTiling

/-- Which levels are served and how they are cut into ranks. -/
structure Schedule where
  minLevel : Nat := 0
  maxLevel : Nat := 3
  subtreeLevels : Nat := 4
  /-- Whether requests build anew what the cache already holds. -/
  reload : Bool := false
  deriving DecidableEq, Repr

/-- The most levels that a subtree may have. -/
def maxSubtreeLevels : Nat := 12

/-- The levels that Morton indices and the equal cut of longitudes allow for. -/
def levelBound : Nat := 32

namespace Schedule

/-- Refuses a schedule whose levels do not form whole ranks, naming the first rule it breaks. -/
def validate (s : Schedule) : Except ConfigError Unit :=
  if s.subtreeLevels = 0 then .error .noSubtreeLevels
  else if maxSubtreeLevels < s.subtreeLevels then
    .error (.subtreeLevelsAbove s.subtreeLevels maxSubtreeLevels)
  else if s.maxLevel < s.minLevel then .error (.maxBelowMin s.maxLevel s.minLevel)
  else if levelBound ≤ s.maxLevel then .error (.maxNotBelow s.maxLevel levelBound)
  else if s.minLevel % s.subtreeLevels ≠ 0 then
    .error (.minNotMultiple s.minLevel s.subtreeLevels)
  else if (s.maxLevel - s.minLevel + 1) % s.subtreeLevels ≠ 0 then
    .error (.unevenRanks s.minLevel s.maxLevel s.subtreeLevels)
  else .ok ()

/-- What a schedule must fulfil to be served. -/
structure Valid (s : Schedule) : Prop where
  levels_pos : 1 ≤ s.subtreeLevels
  levels_le : s.subtreeLevels ≤ 12
  min_le_max : s.minLevel ≤ s.maxLevel
  max_lt : s.maxLevel < 32
  min_dvd : s.minLevel % s.subtreeLevels = 0
  span_dvd : (s.maxLevel - s.minLevel + 1) % s.subtreeLevels = 0

theorem validate_eq_ok_iff (s : Schedule) : s.validate = .ok () ↔ s.Valid := by
  unfold validate maxSubtreeLevels levelBound
  constructor
  · intro h
    split at h
    · contradiction
    split at h
    · contradiction
    split at h
    · contradiction
    split at h
    · contradiction
    split at h
    · contradiction
    split at h
    · contradiction
    constructor <;> omega
  · intro h
    obtain ⟨h1, h2, h3, h4, h5, h6⟩ := h
    rw [if_neg (by omega), if_neg (by omega), if_neg (by omega), if_neg (by omega),
      if_neg (by omega), if_neg (by omega)]

/-- The schedule with the given levels, if it can be served. -/
def ofLevels (minLevel maxLevel subtreeLevels : Nat) : Except ConfigError Schedule := do
  let s : Schedule := ⟨minLevel, maxLevel, subtreeLevels, false⟩
  s.validate
  return s

/-- The same levels with or without building anew. -/
def withReload (s : Schedule) (reload : Bool) : Schedule :=
  { s with reload }

/-- The number of ranks. -/
def rankCount (s : Schedule) : Nat :=
  (s.maxLevel - s.minLevel + 1) / s.subtreeLevels

/-- The level of the roots of the deepest rank. -/
def maxRankRoot (s : Schedule) : Nat :=
  s.maxLevel + 1 - s.subtreeLevels

/-- Whether tiles of a level are rank roots. -/
def isRankRoot (s : Schedule) (level : Nat) : Bool :=
  s.minLevel ≤ level && level ≤ s.maxRankRoot && level % s.subtreeLevels == 0

/-- Whether tiles of a level are roots of the deepest rank. -/
def isMaxRank (s : Schedule) (level : Nat) : Bool :=
  level == s.maxRankRoot

/-- The number of ranks below the one rooted at a level. -/
def ranksBelow (s : Schedule) (level : Nat) : Nat :=
  (s.maxRankRoot - level) / s.subtreeLevels

/-- Levels of the deepest rank above this one carry no content; level `i` of a subtree counts as
`i + 1`. -/
def minContentLevel (s : Schedule) : Int :=
  (s.subtreeLevels : Int) - ((s.maxLevel : Int) - s.minLevel)

end Schedule

end ImplicitTiling
