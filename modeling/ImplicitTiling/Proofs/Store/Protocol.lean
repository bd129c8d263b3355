import ImplicitTiling.Proofs.Store.Contract

/-!
# Protocols between routines and changing surroundings

What a routine may ask and what it is answered can depend on what it knows of its surroundings, and
while it waits others may change them. A protocol says, for knowledge of some type, what others may
do meanwhile, what may be asked, and what is known after an answer. `Routine.Keeps` walks the tree of
a routine once and for all answers and all that happens meanwhile. Towards its caller a part of a
routine is like others at work: it changes no more than they may (`Build.Keeps`), so the rules for
composed routines carry knowledge along.
-/

namespace ImplicitTiling

/-- The rules under which a routine and its surroundings take turns. -/
structure Protocol (κ : Type) where
  /-- How knowledge may change while the routine waits. -/
  Meanwhile : κ → κ → Prop
  refl : ∀ k, Meanwhile k k
  trans : ∀ {k k' k''}, Meanwhile k k' → Meanwhile k' k'' → Meanwhile k k''
  /-- Which requests may be made. -/
  Asks : κ → Action → Prop
  /-- How a request may be answered, and what is known then. -/
  Answers : κ → (a : Action) → a.Answer → κ → Prop

variable {κ α β : Type} {P : Protocol κ}

namespace Routine

/-- Whatever happens meanwhile and however its requests are answered, the routine makes only requests
that it may make, and its value satisfies `post` where it is done. -/
def Keeps (P : Protocol κ) (post : α → κ → Prop) : Routine α → κ → Prop
  | .done a, k => ∀ k', P.Meanwhile k k' → post a k'
  | .ask action next, k => ∀ k', P.Meanwhile k k' → P.Asks k' action ∧
    ∀ answer k'', P.Answers k' action answer k'' → (next answer).Keeps P post k''

theorem Keeps.later {post : α → κ → Prop} {r : Routine α} {k k' : κ} (h : r.Keeps P post k)
    (hk : P.Meanwhile k k') : r.Keeps P post k' := by
  cases r with
  | done a => exact fun k'' hk' => h k'' (P.trans hk hk')
  | ask action next => exact fun k'' hk' => h k'' (P.trans hk hk')

theorem Keeps.bind {post : α → κ → Prop} {post' : β → κ → Prop} {r : Routine α} {k : κ}
    (h : r.Keeps P post k) {f : α → Routine β}
    (hf : ∀ a k', post a k' → (f a).Keeps P post' k') : (r.bind f).Keeps P post' k := by
  induction r generalizing k with
  | done a => exact hf a k (h k (P.refl k))
  | ask action next ih =>
    intro k' hk
    obtain ⟨hasks, hnext⟩ := h k' hk
    exact ⟨hasks, fun answer k'' ha => ih answer (hnext answer k'' ha)⟩

theorem Keeps.mono {post post' : α → κ → Prop} {r : Routine α} {k : κ} (h : r.Keeps P post k)
    (hpost : ∀ a k', post a k' → post' a k') : r.Keeps P post' k := by
  induction r generalizing k with
  | done a => exact fun k' hk => hpost a k' (h k' hk)
  | ask action next ih =>
    intro k' hk
    obtain ⟨hasks, hnext⟩ := h k' hk
    exact ⟨hasks, fun answer k'' ha => ih answer (hnext answer k'' ha)⟩

/-- A run in surroundings that follow the protocol ends with a value that satisfies the
postcondition. `knows` tells what the routine knows of their state. -/
theorem Keeps.run {σ : Type} {answer : (a : Action) → StateM σ a.Answer} (knows : κ → σ → Prop)
    (hanswer : ∀ a k s, P.Asks k a → knows k s →
      ∃ k', P.Answers k a ((answer a).run s).1 k' ∧ knows k' ((answer a).run s).2)
    {post : α → κ → Prop} {r : Routine α} {k : κ} (h : r.Keeps P post k) {s : σ}
    (hs : knows k s) :
    ∃ k', post ((r.run answer).run s).1 k' ∧ knows k' ((r.run answer).run s).2 := by
  induction r generalizing k s with
  | done a => exact ⟨k, h k (P.refl k), hs⟩
  | ask action next ih =>
    obtain ⟨hasks, hnext⟩ := h k (P.refl k)
    obtain ⟨k', ha, hs'⟩ := hanswer action k s hasks hs
    exact ih _ (hnext _ k' ha) hs'

end Routine

namespace Build

variable {post : α → κ → Prop} {post' : β → κ → Prop} {k : κ}

/-- The routine keeps to the protocol, changes no more than may happen meanwhile, and its value
satisfies `post` where it succeeds. -/
def Keeps (P : Protocol κ) (post : α → κ → Prop) (b : Build α) (k : κ) : Prop :=
  b.run.Keeps P (fun r k' => P.Meanwhile k k' ∧ ∀ a, r = .ok a → post a k') k

theorem Keeps.pure {a : α} (h : ∀ k', P.Meanwhile k k' → post a k') :
    Keeps P post (pure a) k := by
  intro k' hk
  refine ⟨hk, ?_⟩
  rintro _ ⟨rfl⟩
  exact h k' hk

theorem Keeps.throw (e : Error) : Keeps P post (throw e) k :=
  fun _ hk => ⟨hk, fun _ h => nomatch h⟩

theorem Keeps.bind {b : Build α} (h : Keeps P post b k) {f : α → Build β}
    (hf : ∀ a k', P.Meanwhile k k' → post a k' → Keeps P post' (f a) k') :
    Keeps P post' (b >>= f) k := by
  apply Routine.Keeps.bind h
  rintro r k' ⟨hk, hr⟩
  cases r with
  | ok a =>
    refine (hf a k' hk (hr a rfl)).mono ?_
    exact fun r k'' h => ⟨P.trans hk h.1, h.2⟩
  | error e => exact fun k'' hk' => ⟨P.trans hk hk', fun _ h => nomatch h⟩

theorem Keeps.mono {post' : α → κ → Prop} {b : Build α} (h : Keeps P post b k)
    (hpost : ∀ a k', P.Meanwhile k k' → post a k' → post' a k') : Keeps P post' b k :=
  Routine.Keeps.mono h fun _ k' hr => ⟨hr.1, fun a ha => hpost a k' hr.1 (hr.2 a ha)⟩

/-- A single request that changes no more than may happen meanwhile. -/
theorem Keeps.ask (action : Action) {next : action.Answer → Except Error α}
    (hasks : ∀ k', P.Meanwhile k k' → P.Asks k' action)
    (hnext : ∀ k' answer k'', P.Meanwhile k k' → P.Answers k' action answer k'' →
      P.Meanwhile k k'' ∧
        ∀ a, next answer = .ok a → ∀ k''', P.Meanwhile k'' k''' → post a k''') :
    Keeps P post (.mk (.ask action fun answer => .done (next answer))) k := by
  intro k' hk
  refine ⟨hasks k' hk, fun answer k'' ha k''' hk' => ?_⟩
  obtain ⟨hk'', hpost⟩ := hnext k' answer k'' hk ha
  exact ⟨P.trans hk'' hk', fun a h => hpost a h k''' hk'⟩

theorem Keeps.check {r : Except Precondition α} {a : α} (hr : r = .ok a)
    (h : ∀ k', P.Meanwhile k k' → post a k') : Keeps P post (check r) k := by
  subst hr
  exact Keeps.pure h

theorem Keeps.check_eq {r : Except Precondition α} {a : α} (hr : r = .ok a) :
    Keeps P (fun a' _ => a' = a) (Build.check r) k :=
  Keeps.check hr fun _ _ => rfl

/-- A routine that begins with a part of its own, however it ends. -/
theorem Keeps.run_bind {b : Build α} (h : Keeps P post b k) {f : α → Build β}
    {ends : Except Error β → κ → Prop}
    (herror : ∀ e k', P.Meanwhile k k' → ends (.error e) k')
    (hf : ∀ a k', P.Meanwhile k k' → post a k' → (f a).run.Keeps P ends k') :
    (b >>= f).run.Keeps P ends k := by
  apply Routine.Keeps.bind h
  rintro r k' ⟨hk, hr⟩
  cases r with
  | ok a => exact hf a k' hk (hr a rfl)
  | error e => exact fun k'' hk' => herror e k'' (P.trans hk hk')

theorem run_map_keeps {b : Build α} {ends : Except Error α → κ → Prop}
    {ends' : Except Error β → κ → Prop} (h : b.run.Keeps P ends k) {f : α → β}
    (hends : ∀ r k' k'', ends r k' → P.Meanwhile k' k'' → ends' (r.map f) k'') :
    (b >>= fun a => Pure.pure (f a)).run.Keeps P ends' k := by
  apply Routine.Keeps.bind h
  intro r k' hr
  cases r with
  | ok a => exact fun k'' hk => hends _ _ _ hr hk
  | error e => exact fun k'' hk => hends _ _ _ hr hk

/-- With its lock held, the body may change what nobody else can see until the lock is given back;
`ends` tells how it ends, and what is known then. -/
theorem Keeps.withLock {n : Node} {body : Build α} (ends : Except Error α → κ → Prop)
    (hends : ∀ {r k k'}, ends r k → P.Meanwhile k k' → ends r k')
    (hbody : ∀ k', P.Meanwhile k k' → P.Asks k' (.lock n) ∧
      ∀ k'', P.Answers k' (.lock n) () k'' → body.run.Keeps P ends k'')
    (hunlock : ∀ r k', ends r k' → P.Asks k' (.unlock n) ∧
      ∀ k'', P.Answers k' (.unlock n) () k'' → P.Meanwhile k k'' ∧
        ∀ a, r = .ok a → ∀ k₃, P.Meanwhile k'' k₃ → post a k₃) :
    Keeps P post (withLock n body) k := by
  intro k' hk
  obtain ⟨hasks, hnext⟩ := hbody k' hk
  refine ⟨hasks, fun _ k'' ha => ?_⟩
  apply Routine.Keeps.bind (hnext k'' ha)
  intro r k₁ hr k₂ hk₂
  obtain ⟨hasks, hrest⟩ := hunlock r k₂ (hends hr hk₂)
  refine ⟨hasks, fun _ k₃ ha k₄ hk₄ => ?_⟩
  obtain ⟨hk₃, hpost⟩ := hrest k₃ ha
  exact ⟨P.trans hk₃ hk₄, fun a h => hpost a h k₄ hk₄⟩

theorem Keeps.mapM_quadrants {f : UInt64 → Build α} (post : Nat → α → κ → Prop)
    (hpost : ∀ {q a k k'}, post q a k → P.Meanwhile k k' → post q a k')
    (h : ∀ q < 4, ∀ k', P.Meanwhile k k' → Keeps P (post q) (f q.toUInt64) k') :
    Keeps P (fun parts k' => parts.length = 4 ∧ ∀ q (hq : q < parts.length), post q parts[q] k')
      (Store.quadrants.mapM f) k := by
  show Keeps P _ (do
    let a₀ ← f 0
    let a₁ ← f 1
    let a₂ ← f 2
    let a₃ ← f 3
    return [a₀, a₁, a₂, a₃]) k
  refine (h 0 (by decide) k (P.refl k)).bind fun a₀ k₀ hk₀ h₀ => ?_
  refine (h 1 (by decide) k₀ hk₀).bind fun a₁ k₁ hk₁ h₁ => ?_
  refine (h 2 (by decide) k₁ (P.trans hk₀ hk₁)).bind fun a₂ k₂ hk₂ h₂ => ?_
  refine (h 3 (by decide) k₂ (P.trans (P.trans hk₀ hk₁) hk₂)).bind fun a₃ k₃ hk₃ h₃ => ?_
  refine .pure fun k₄ hk₄ => ⟨rfl, ?_⟩
  have hk₃ := P.trans hk₃ hk₄
  have hk₂ := P.trans hk₂ hk₃
  intro q hq
  match q, hq with
  | 0, _ => exact hpost h₀ (P.trans hk₁ hk₂)
  | 1, _ => exact hpost h₁ hk₂
  | 2, _ => exact hpost h₂ hk₃
  | 3, _ => exact hpost h₃ hk₄

/-- A loop over a list that keeps an invariant of its state. -/
theorem Keeps.foldlM {ι : Type} {f : α → ι → Build α} (inv : α → Prop) {items : List ι}
    (hstep : ∀ i a k', P.Meanwhile k k' → inv a → Keeps P (fun a' _ => inv a') (f a i) k')
    {a : α} (ha : inv a) : Keeps P (fun a' _ => inv a') (items.foldlM f a) k := by
  induction items generalizing a k with
  | nil => exact .pure fun _ _ => ha
  | cons i items ih =>
    rw [List.foldlM_cons]
    refine (hstep i a k (P.refl k) ha).bind fun a' k' hk ha' => ?_
    exact ih (fun i a k'' hk' => hstep i a k'' (P.trans hk hk')) ha'

end Build

end ImplicitTiling
