import ImplicitTiling.Store.Basic

/-!
# Contracts between routines and their surroundings

A contract says which requests a routine may make and which answers it has to be ready for.
`Routine.Meets` walks the tree of a routine once and for all answers; one rule for each way to
compose routines follows, and `Routine.Meets.run` carries the outcome over to a run in surroundings
that keep the contract.
-/

namespace ImplicitTiling

/-- Which requests may be made, and how they may be answered. -/
structure Contract where
  asks : Action → Prop
  answers : (a : Action) → a.Answer → Prop

namespace Routine

variable {α β : Type} {c : Contract}

/-- However its requests are answered within the contract, the routine makes only requests of the
contract, and its value satisfies `post` where it is done. -/
def Meets (c : Contract) (post : α → Prop) : Routine α → Prop
  | .done a => post a
  | .ask action next =>
    c.asks action ∧ ∀ answer, c.answers action answer → (next answer).Meets c post

theorem Meets.bind {post : α → Prop} {post' : β → Prop} {r : Routine α} (h : r.Meets c post)
    {f : α → Routine β} (hf : ∀ a, post a → (f a).Meets c post') : (r.bind f).Meets c post' := by
  induction r with
  | done a => exact hf a h
  | ask action next ih => exact ⟨h.1, fun answer ha => ih answer (h.2 answer ha)⟩

theorem Meets.mono {post post' : α → Prop} {r : Routine α} (h : r.Meets c post)
    (hpost : ∀ a, post a → post' a) : r.Meets c post' := by
  induction r with
  | done a => exact hpost a h
  | ask action next ih => exact ⟨h.1, fun answer ha => ih answer (h.2 answer ha)⟩

theorem run_keeps {σ : Type} {answer : (a : Action) → StateM σ a.Answer} {inv : σ → Prop}
    (hanswer : ∀ a s, inv s → inv ((answer a).run s).2) (r : Routine α) {s : σ} (hs : inv s) :
    inv ((r.run answer).run s).2 := by
  induction r generalizing s with
  | done a => exact hs
  | ask action next ih => exact ih _ (hanswer action s hs)

/-- A run in surroundings that keep an invariant of their own, and the contract as long as nothing
`bad` happens in the whole run: what is bad stays so. It ends with a value that satisfies the
postcondition, unless it ends badly. -/
theorem Meets.run_unless {σ : Type} {answer : (a : Action) → StateM σ a.Answer}
    {inv bad : σ → Prop} (hbad : ∀ a s, bad s → bad ((answer a).run s).2) {fails : Prop}
    (hanswer : ∀ a s, c.asks a → inv s → (bad ((answer a).run s).2 → fails) →
      c.answers a ((answer a).run s).1 ∧ inv ((answer a).run s).2)
    {post : α → Prop} {r : Routine α} (h : r.Meets c post) {s : σ} (hs : inv s)
    (hend : bad ((r.run answer).run s).2 → fails) :
    post ((r.run answer).run s).1 ∧ inv ((r.run answer).run s).2 := by
  induction r generalizing s with
  | done a => exact ⟨h, hs⟩
  | ask action next ih =>
    obtain ⟨hasks, hnext⟩ := h
    obtain ⟨ha, hs'⟩ := hanswer action s hasks hs fun hb =>
      hend (run_keeps hbad (next ((answer action).run s).1) hb)
    exact ih _ (hnext _ ha) hs' hend

/-- A run in surroundings that keep the contract, and an invariant of their own, ends with a value
that satisfies the postcondition. -/
theorem Meets.run {σ : Type} {answer : (a : Action) → StateM σ a.Answer} {inv : σ → Prop}
    (hanswer : ∀ a s, c.asks a → inv s →
      c.answers a ((answer a).run s).1 ∧ inv ((answer a).run s).2)
    {post : α → Prop} {r : Routine α} (h : r.Meets c post) {s : σ} (hs : inv s) :
    post ((r.run answer).run s).1 ∧ inv ((r.run answer).run s).2 :=
  h.run_unless (fun _ _ (hb : False) => hb) (fun a s hasks hs _ => hanswer a s hasks hs) hs id

end Routine

/-- The outcome satisfies `post`; it may be a failure only if failures are allowed. -/
def Outcome {α : Type} (fails : Prop) (post : α → Prop) : Except Error α → Prop
  | .ok a => post a
  | .error _ => fails

theorem Outcome.mono {α : Type} {fails : Prop} {post post' : α → Prop}
    (h : ∀ a, post a → post' a) {r : Except Error α} (hr : Outcome fails post r) :
    Outcome fails post' r := by
  cases r with
  | ok a => exact h a hr
  | error e => exact hr

namespace Build

variable {α β : Type} {c : Contract} {fails : Prop} {post : α → Prop} {post' : β → Prop}

/-- The routine meets the contract, its value satisfies `post`, and it fails only if failures are
allowed. -/
def Meets (c : Contract) (fails : Prop) (post : α → Prop) (b : Build α) : Prop :=
  Routine.Meets c (Outcome fails post) b.run

theorem Meets.pure {a : α} (h : post a) : Meets c fails post (pure a) :=
  h

theorem Meets.throw (h : fails) (e : Error) : Meets c fails post (throw e) :=
  h

theorem Meets.bind {b : Build α} (h : Meets c fails post b) {f : α → Build β}
    (hf : ∀ a, post a → Meets c fails post' (f a)) : Meets c fails post' (b >>= f) := by
  apply Routine.Meets.bind h
  intro r hr
  cases r with
  | ok a => exact hf a hr
  | error e => exact hr

theorem Meets.mono {post' : α → Prop} {b : Build α} (h : Meets c fails post b)
    (hpost : ∀ a, post a → post' a) : Meets c fails post' b :=
  Routine.Meets.mono h fun _ hr => hr.mono hpost

/-- A single request whose answer is the outcome. -/
theorem Meets.ask (action : Action) (hasks : c.asks action)
    {next : action.Answer → Except Error α}
    (hnext : ∀ answer, c.answers action answer → Outcome fails post (next answer)) :
    Meets c fails post (.mk (.ask action fun answer => .done (next answer))) :=
  ⟨hasks, hnext⟩

theorem Meets.withLock {n : Node} (hlock : c.asks (.lock n)) (hunlock : c.asks (.unlock n))
    {body : Build α} (h : Meets c fails post body) : Meets c fails post (withLock n body) :=
  ⟨hlock, fun _ _ => Routine.Meets.bind h fun _ hr => ⟨hunlock, fun _ _ => hr⟩⟩

theorem Meets.check {r : Except Precondition α} {a : α} (hr : r = .ok a) (h : post a) :
    Meets c fails post (check r) := by
  subst hr
  exact h

/-- One routine for each quadrant. -/
theorem Meets.mapM_quadrants {f : UInt64 → Build α} (post : Nat → α → Prop)
    (h : ∀ q < 4, Meets c fails (post q) (f q.toUInt64)) :
    Meets c fails (fun parts => parts.length = 4 ∧ ∀ q (hq : q < parts.length), post q parts[q])
      (Store.quadrants.mapM f) := by
  show Meets c fails _ (do
    let a₀ ← f 0
    let a₁ ← f 1
    let a₂ ← f 2
    let a₃ ← f 3
    return [a₀, a₁, a₂, a₃])
  refine (h 0 (by decide)).bind fun a₀ h₀ => ?_
  refine (h 1 (by decide)).bind fun a₁ h₁ => ?_
  refine (h 2 (by decide)).bind fun a₂ h₂ => ?_
  refine (h 3 (by decide)).bind fun a₃ h₃ => ?_
  refine .pure ⟨rfl, ?_⟩
  intro q hq
  match q, hq with
  | 0, _ => exact h₀
  | 1, _ => exact h₁
  | 2, _ => exact h₂
  | 3, _ => exact h₃

/-- A loop over the numbers below `n` that keeps an invariant. -/
theorem Meets.foldlM_range {f : α → Nat → Build α} (inv : Nat → α → Prop) (n : Nat)
    (hstep : ∀ i < n, ∀ a, inv i a → Meets c fails (inv (i + 1)) (f a i)) {a : α} (ha : inv 0 a) :
    Meets c fails (inv n) ((List.range n).foldlM f a) := by
  have hrest (start len : Nat) (hlen : start + len = n) (a : α) (ha : inv start a) :
      Meets c fails (inv n) ((List.range' start len).foldlM f a) := by
    induction len generalizing start a with
    | zero =>
      obtain rfl : start = n := hlen
      exact .pure ha
    | succ len ih =>
      rw [List.range'_succ, List.foldlM_cons]
      exact (hstep start (by omega) a ha).bind fun a' ha' => ih (start + 1) (by omega) a' ha'
  rw [List.range_eq_range']
  exact hrest 0 n (Nat.zero_add n) a ha

end Build

end ImplicitTiling
