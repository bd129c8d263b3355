import ImplicitTiling.Store.Basic

/-!
# The recursion with checked arithmetic

`buildRank` and `descend` are told how many ranks and levels are left. `Checked.request` is the same
recursion on a machine, which is told nothing but a level: the deepest rank is where the level is
that of its roots, the levels that are left in a rank come by subtraction, and levels are numbers of
32 bits, indices words of 64. A computation stops where arithmetic would leave its range, and where
calls nest deeper than allowed.

A computation makes a routine and lists its calls. These are the calls that any answers of the oracle
and the cache can lead to, since the routines of all quadrants are made before a tile is asked for.
-/

namespace ImplicitTiling.Store

/-- A call on the way down, or a leaf that is asked for. -/
inductive Call where
  /-- Build the rank root. -/
  | build (n : Node)
  /-- Build what is left below a node of the rank rooted at level `origin`. -/
  | inside (n : Node) (origin : Nat)
  /-- Take the subtree of the rank root from the cache, or build it. -/
  | resolve (n : Node)
  /-- Build the root of the deepest rank. -/
  | deepest (n : Node)
  /-- Ask for leaf number `i` of a root of the deepest rank. -/
  | leaf (root : Node) (i : Nat) (n : Node)

/-- A computation that lists its calls, the latest first, and gives nothing where it overflows. -/
abbrev Checked : Type → Type :=
  StateT (List Call) Option

namespace Checked

variable {α β : Type}

/-! ## Arithmetic -/

/-- The value `a`, if it is allowed. -/
def require (ok : Prop) [Decidable ok] (a : α) : Checked α :=
  if ok then pure a else failure

/-- Lists a call. -/
def enter (c : Call) : Checked Unit :=
  modify (c :: ·)

/-- A sum of 32 bits. -/
def add (a b : Nat) : Checked Nat :=
  require (a + b < 2 ^ 32) (a + b)

/-- A difference that is not negative. -/
def sub (a b : Nat) : Checked Nat :=
  require (b ≤ a) (a - b)

/-- A product of 32 bits. -/
def mul (a b : Nat) : Checked Nat :=
  require (a * b < 2 ^ 32) (a * b)

/-- The remainder of a division. -/
def rem (a b : Nat) : Checked Nat :=
  require (b ≠ 0) (a % b)

/-- A sum of 64 bits. -/
def addWord (a b : UInt64) : Checked UInt64 :=
  require (a.toNat + b.toNat < 2 ^ 64) (a + b)

/-- A word, shifted by less than its width. -/
def shift (a : UInt64) (bits : Nat) : Checked UInt64 :=
  require (bits < 64) (a <<< bits.toUInt64)

/-! ## The recursion -/

/-- The arithmetic of the mask of the indices of a level. -/
def mask (level : Nat) : Checked Unit := do
  let bits ← mul 2 level
  unless 64 ≤ bits do
    let _ ← shift 1 bits

/-- The arithmetic of the box of a tile. -/
def box (n : Node) : Checked Unit := do
  mask n.level
  let _ ← shift 1 n.level

/-- The arithmetic of the longest row of a subtree. -/
def room (levels : Nat) : Checked Unit := do
  let _ ← shift 1 (2 * levels)

/-- The level of the roots of the deepest rank. -/
def lastRoot (s : Schedule) : Checked Nat := do
  sub (← add s.maxLevel 1) s.subtreeLevels

/-- The child of a node in a quadrant. -/
def childOf (n : Node) (q : UInt64) : Checked Node := do
  let level ← add n.level 1
  let shifted ← shift n.index 2
  return ⟨level, shifted ||| q⟩

/-- Leaf number `i` of a root of the deepest rank, from its level and the index of the first leaf. -/
def leafOf (root : Node) (level : Nat) (first : UInt64) (i : Nat) : Checked (Nat × Node) := do
  let leaf : Node := ⟨level, ← addWord first i.toUInt64⟩
  enter (.leaf root i leaf)
  box leaf
  return (i, leaf)

/-- Makes the routine for a root of the deepest rank. -/
def deepest (s : Schedule) (n : Node) : Checked (Build Subtree) := do
  enter (.deepest n)
  box n
  room s.subtreeLevels
  let depth ← sub s.subtreeLevels 1
  let level ← add n.level depth
  let bits ← mul 2 depth
  let count ← shift 1 bits
  let first ← shift n.index bits
  let leaves ← (List.range count.toNat).mapM (leafOf n level first)
  return do
    if ← Build.query n then
      let leaves ← leaves.foldlM (fun leaves (i, leaf) => do
        return if ← Build.query leaf then leaves.set i true else leaves) (Bitset.empty count.toNat)
      let tiles ← Build.check (Availability.ofTileLeaves leaves count.toNat)
      let content ←
        Build.check (Availability.ofContentLeaves leaves count.toNat s.minContentLevel)
      Build.check
        (Subtree.ofParts tiles content (.empty s.subtreeLevels .children) s.subtreeLevels)
    else
      Build.note (.nothingUnderRank n)
      return .empty s.subtreeLevels

/-- The routine for a node above the deepest rank with `levels` levels left in its rank, from the
routines for its quadrants. -/
def gather (n : Node) (levels : Nat) (below : List (Build Subtree)) : Build Subtree := do
  if ← Build.query n then
    if 1 < levels then
      let parts ← below.mapM id
      Build.check (Subtree.concatenate parts)
    else
      let parts ← below.mapM fun sub => do
        Build.check (← sub).summary
      let joined ← Build.check (Subtree.concatenate parts)
      Build.check joined.summary
  else
    Build.note (.nothingUnderTile n)
    return .empty levels

mutual

/-- Makes the routine for a rank root, with so many calls within one another at most. -/
def build (s : Schedule) : Nat → Node → Checked (Build Subtree)
  | 0, _ => failure
  | nesting + 1, n => do
    enter (.build n)
    mask n.level
    if n.level = (← lastRoot s) then deepest s n else inside s nesting n n.level

/-- Makes the routine for a node of the rank rooted at level `origin`. -/
def inside (s : Schedule) : Nat → Node → Nat → Checked (Build Subtree)
  | 0, _, _ => failure
  | nesting + 1, n, origin => do
    enter (.inside n origin)
    let levels ← sub s.subtreeLevels (← sub n.level origin)
    box n
    room levels
    let below ← quadrants.mapM fun q => do
      let child ← childOf n q
      if 1 < levels then inside s nesting child origin else resolve s nesting child
    return gather n levels below

/-- Makes the routine for a rank root below another. -/
def resolve (s : Schedule) : Nat → Node → Checked (Build Subtree)
  | 0, _ => failure
  | nesting + 1, n => do
    enter (.resolve n)
    let subtree ← build s nesting n
    return Store.resolve s (fun _ => subtree) n

end

/-- Makes the routine for a request. -/
def request (s : Schedule) (nesting : Nat) (t : Tile) : Checked (Build ByteArray) := do
  let last ← lastRoot s
  let offset ← rem t.level s.subtreeLevels
  if s.minLevel ≤ t.level ∧ t.level ≤ last ∧ offset = 0 then
    let side ← shift 1 t.level
    if t.x.toUInt64 < side ∧ t.y.toUInt64 < side then
      mask t.level
      let subtree ← build s nesting t.node
      return Build.withLock t.node do
        match ← fetchBytes s t.node with
        | some bytes =>
          Build.note (.served t)
          return bytes
        | none => return (← buildAndSave (fun _ => subtree) t.node).2
    else
      return throw (.precondition (.outsideLevel t.level t.x t.y))
  else
    return throw (.notRankRoot t.level)

/-! ## Computations that do not overflow -/

/-- The computation gives `a`. Its calls fulfil `p`, and if `reaches`, one of them is for a root of
the deepest rank. -/
def Yields (p : Call → Prop) (reaches : Prop) (x : Checked α) (a : α) : Prop :=
  ∀ log, ∃ calls, x.run log = some (a, calls ++ log) ∧ (∀ c ∈ calls, p c) ∧
    (reaches → ∃ n, .deepest n ∈ calls)

section

variable {p : Call → Prop} {reaches reaches' : Prop} {a a' : α} {b : β}

theorem Yields.mono {x : Checked α} (hx : Yields p reaches' x a) (h : reaches → reaches') :
    Yields p reaches x a := by
  intro log
  obtain ⟨calls, hrun, hcalls, hreaches⟩ := hx log
  exact ⟨calls, hrun, hcalls, hreaches ∘ h⟩

theorem Yields.pure (h : a' = a) : Yields p False (pure a') a := by
  subst h
  exact fun log => ⟨[], rfl, nofun, False.elim⟩

theorem Yields.bind_or {x : Checked α} {f : α → Checked β} (hx : Yields p reaches x a)
    (hf : Yields p reaches' (f a) b) : Yields p (reaches ∨ reaches') (x >>= f) b := by
  intro log
  obtain ⟨calls, hrun, hcalls, hreaches⟩ := hx log
  obtain ⟨calls', hrun', hcalls', hreaches'⟩ := hf (calls ++ log)
  refine ⟨calls' ++ calls, ?_, List.forall_mem_append.2 ⟨hcalls', hcalls⟩, ?_⟩
  · rw [StateT.run_bind, hrun, List.append_assoc]
    exact hrun'
  · rintro (h | h)
    · obtain ⟨n, hn⟩ := hreaches h
      exact ⟨n, List.mem_append_right _ hn⟩
    · obtain ⟨n, hn⟩ := hreaches' h
      exact ⟨n, List.mem_append_left _ hn⟩

theorem Yields.bind {x : Checked α} {f : α → Checked β} (hx : Yields p reaches' x a)
    (hf : Yields p reaches (f a) b) : Yields p reaches (x >>= f) b :=
  (hx.bind_or hf).mono .inr

theorem Yields.bind_left {x : Checked α} {f : α → Checked β} (hx : Yields p reaches x a)
    (hf : Yields p False (f a) b) : Yields p reaches (x >>= f) b :=
  (hx.bind_or hf).mono .inl

theorem Yields.enter {c : Call} (h : p c) : Yields p (∃ n, c = .deepest n) (enter c) () := by
  refine fun log => ⟨[c], rfl, List.forall_mem_singleton.2 h, ?_⟩
  rintro ⟨n, rfl⟩
  exact ⟨n, List.mem_singleton.2 rfl⟩

theorem Yields.require {ok : Prop} [Decidable ok] (h : ok) :
    Yields p False (require ok a) a := by
  unfold Checked.require
  rw [if_pos h]
  exact .pure rfl

theorem Yields.mapM {ι : Type} {items : List ι} {f : ι → Checked β} {g : ι → β}
    (h : ∀ i ∈ items, Yields p reaches (f i) (g i)) :
    Yields p (reaches ∧ items ≠ []) (items.mapM f) (items.map g) := by
  induction items with
  | nil => exact (Yields.pure rfl).mono fun h => h.2 rfl
  | cons i items ih =>
    obtain ⟨hi, hitems⟩ := List.forall_mem_cons.1 h
    rw [List.mapM_cons]
    exact Yields.mono (.bind_left hi (.bind (ih hitems) (.pure rfl))) And.left

end

end Checked

end ImplicitTiling.Store
