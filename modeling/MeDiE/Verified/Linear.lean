import MeDiE.Verified.Transition

/-!
# Linearizable histories

Parties call operations of a shared object and get results.  A history of calls and
answers is linearizable if one can say for every operation that took effect when it did:
between its call and its answer, so that the operations one after the other, in that
order, are what the specification of the object allows.  A call that is refused takes no
effect at all.

The atomic object is the machine that produces such histories; a system that it simulates
has linearizable histories.
-/

namespace MeDiE.Verified.Linear

open MeDiE.Verified.Transition

variable {P O R S : Type}

/-- What happens at a party, and the points at which operations take effect. -/
inductive Event (P O R : Type)
  | call (p : P) (o : O)
  | point (p : P) (o : O) (r : R)
  | answer (p : P) (r : R)
  | refusal (p : P)
  deriving DecidableEq

/-- Where a party is with its operation. -/
inductive Status (O R : Type)
  | idle
  | called (o : O)
  | decided (r : R)

/-- What a party sees. -/
def Event.visible : Event P O R → Bool
  | .point _ _ _ => false
  | _ => true

/-- The operation that takes effect at a point, with its result. -/
def Event.effect : Event P O R → Option (O × R)
  | .point _ o r => some (o, r)
  | _ => none

def Event.party : Event P O R → P
  | .call p _ => p
  | .point p _ _ => p
  | .answer p _ => p
  | .refusal p => p

/-- One operation after the other takes the object from one state to another. -/
inductive Runs (spec : O → S → R → S → Prop) : S → List (O × R) → S → Prop
  | nil (s : S) : Runs spec s [] s
  | snoc {s t u : S} {rs : List (O × R)} {o : O} {r : R} :
      Runs spec s rs t → spec o t r u → Runs spec s (rs ++ [(o, r)]) u

/-- The events of a party are, again and again, a call, the point at which it takes
effect, and the answer with the result; or a call and its refusal. -/
inductive Follows (p : P) : List (Event P O R) → Status O R → Prop
  | nil : Follows p [] .idle
  | other {es : List (Event P O R)} {st : Status O R} {e : Event P O R} :
      Follows p es st → e.party ≠ p → Follows p (es ++ [e]) st
  | call {es : List (Event P O R)} (o : O) :
      Follows p es .idle → Follows p (es ++ [.call p o]) (.called o)
  | point {es : List (Event P O R)} {o : O} (r : R) :
      Follows p es (.called o) → Follows p (es ++ [.point p o r]) (.decided r)
  | answer {es : List (Event P O R)} {r : R} :
      Follows p es (.decided r) → Follows p (es ++ [.answer p r]) .idle
  | refusal {es : List (Event P O R)} {o : O} :
      Follows p es (.called o) → Follows p (es ++ [.refusal p]) .idle

/-- Points can be put into the history such that every party sees its own results and the
operations take the object from `init` to `final`. -/
def Linearizable (spec : O → S → R → S → Prop) (init : S) (history : List (Event P O R))
    (final : S) : Prop :=
  ∃ trace : List (Event P O R), trace.filter Event.visible = history ∧
    (∀ p, ∃ st, Follows p trace st) ∧ Runs spec init (trace.filterMap Event.effect) final

/-! ## The atomic object -/

structure State (P O R S : Type) where
  obj : S
  status : P → Status O R
  trace : List (Event P O R)

def init (P O R : Type) (s : S) : State P O R S where
  obj := s
  status := fun _ => .idle
  trace := []

variable [DecidableEq P]

inductive Step (spec : O → S → R → S → Prop) : State P O R S → State P O R S → Prop
  | call {st : State P O R S} {p : P} (o : O) (hp : st.status p = .idle) :
      Step spec st
        { st with
          status := Function.update st.status p (.called o)
          trace := st.trace ++ [.call p o] }
  | point {st : State P O R S} {p : P} {o : O} {r : R} {s : S}
      (hp : st.status p = .called o) (hspec : spec o st.obj r s) :
      Step spec st
        { obj := s
          status := Function.update st.status p (.decided r)
          trace := st.trace ++ [.point p o r] }
  | answer {st : State P O R S} {p : P} {r : R} (hp : st.status p = .decided r) :
      Step spec st
        { st with
          status := Function.update st.status p .idle
          trace := st.trace ++ [.answer p r] }
  | refusal {st : State P O R S} {p : P} {o : O} (hp : st.status p = .called o) :
      Step spec st
        { st with
          status := Function.update st.status p .idle
          trace := st.trace ++ [.refusal p] }

/-- The trace explains the object and where every party is. -/
structure Inv (spec : O → S → R → S → Prop) (s : S) (st : State P O R S) : Prop where
  follows : ∀ p, Follows p st.trace (st.status p)
  runs : Runs spec s (st.trace.filterMap Event.effect) st.obj

omit [DecidableEq P] in
theorem inv_init (spec : O → S → R → S → Prop) (s : S) : Inv spec s (init P O R s) where
  follows := fun _ => Follows.nil
  runs := Runs.nil s

/-- Only the party of an event moves on. -/
theorem follows_update {st : State P O R S} (h : ∀ p, Follows p st.trace (st.status p))
    {e : Event P O R} {status : Status O R}
    (he : Follows e.party (st.trace ++ [e]) status) (p : P) :
    Follows p (st.trace ++ [e]) (Function.update st.status e.party status p) := by
  by_cases hp : p = e.party
  · subst hp
    rw [Function.update_self]
    exact he
  · rw [Function.update_of_ne hp]
    exact Follows.other (h p) (Ne.symm hp)

theorem Inv.step {spec : O → S → R → S → Prop} {s : S} {st st' : State P O R S}
    (inv : Inv spec s st) (h : Step spec st st') : Inv spec s st' := by
  cases h with
  | call o hp =>
      constructor
      · exact follows_update inv.follows (Follows.call o (hp ▸ inv.follows _))
      · rw [List.filterMap_append, show List.filterMap Event.effect [Event.call _ o] =
          ([] : List (O × R)) from rfl, List.append_nil]
        exact inv.runs
  | point hp hspec =>
      constructor
      · exact follows_update inv.follows (Follows.point _ (hp ▸ inv.follows _))
      · rw [List.filterMap_append]
        exact inv.runs.snoc hspec
  | answer hp =>
      constructor
      · exact follows_update inv.follows (Follows.answer (hp ▸ inv.follows _))
      · rw [List.filterMap_append, show List.filterMap Event.effect [Event.answer _ _] =
          ([] : List (O × R)) from rfl, List.append_nil]
        exact inv.runs
  | refusal hp =>
      constructor
      · exact follows_update inv.follows (Follows.refusal (hp ▸ inv.follows _))
      · rw [List.filterMap_append, show List.filterMap Event.effect [Event.refusal _] =
          ([] : List (O × R)) from rfl, List.append_nil]
        exact inv.runs

/-- What the parties see of an atomic object is linearizable. -/
theorem linearizable_of_reach {spec : O → S → R → S → Prop} {s : S} {st : State P O R S}
    (h : Reach (init P O R s) (Step spec) st) :
    Linearizable spec s (st.trace.filter Event.visible) st.obj := by
  have inv : Inv spec s st := h.invariant (inv_init spec s) fun _ _ _ inv hstep => inv.step hstep
  exact ⟨st.trace, rfl, fun p => ⟨st.status p, inv.follows p⟩, inv.runs⟩

/-! ## Parties and desks

Parties call, and wait for what comes of it, or are served at a desk, at one desk at a
time.  What a party that waits can say of its operation is a condition on the status. -/

section Desks

variable {D : Type}

/-- The atomic object goes along with the parties and the desks. -/
structure Explains (obj : S) (events : List (Event P O R))
    (waits : P → Option (Status O R → Prop)) (desk : D → Option (P × Status O R))
    (st : State P O R S) : Prop where
  obj : st.obj = obj
  events : st.trace.filter Event.visible = events
  waiting : ∀ p Q, waits p = some Q → Q (st.status p)
  served : ∀ d p status, desk d = some (p, status) → waits p = none ∧ st.status p = status
  unique : ∀ d e p status status', desk d = some (p, status) → desk e = some (p, status') →
    d = e

variable {obj obj' : S} {events events' : List (Event P O R)}
  {waits : P → Option (Status O R → Prop)} {desk : D → Option (P × Status O R)}
  {st : State P O R S} {p : P} {Q Q' : Status O R → Prop}
  (spec : O → S → R → S → Prop)

omit [DecidableEq P] in
/-- Nobody is served at a desk any more. -/
theorem Explains.drop [DecidableEq D] (h : Explains obj events waits desk st) (d : D) :
    Explains obj events waits (Function.update desk d none) st where
  obj := h.obj
  events := h.events
  waiting := h.waiting
  served := by
    intro e p status he
    by_cases hd : e = d
    · rw [hd, Function.update_self] at he
      cases he
    · exact h.served e p status (by rwa [Function.update_of_ne hd] at he)
  unique := by
    intro e e' p status status' he he'
    by_cases hd : e = d
    · rw [hd, Function.update_self] at he
      cases he
    · by_cases hd' : e' = d
      · rw [hd', Function.update_self] at he'
        cases he'
      · rw [Function.update_of_ne hd] at he
        rw [Function.update_of_ne hd'] at he'
        exact h.unique e e' p status status' he he'

omit [DecidableEq P] in
theorem Explains.congr (h : Explains obj events waits desk st)
    {waits' : P → Option (Status O R → Prop)} {desk' : D → Option (P × Status O R)}
    (hobj : obj' = obj) (hwaits : waits' = waits) (hdesk : desk' = desk) :
    Explains obj' events waits' desk' st := by
  rw [hobj, hwaits, hdesk]
  exact h

/-- A party that waits goes on. -/
theorem Explains.move (h : Explains obj events waits desk st) (hp : waits p = some Q)
    {status : Status O R} (hstatus : Q' status) {trace : List (Event P O R)}
    (htrace : trace.filter Event.visible = events') :
    Explains obj events' (Function.update waits p (some Q')) desk
      { st with
        status := Function.update st.status p status
        trace := trace } where
  obj := h.obj
  events := htrace
  waiting := by
    intro q T hq
    by_cases hqp : q = p
    · subst hqp
      rw [Function.update_self, Option.some.injEq] at hq
      subst hq
      simpa using hstatus
    · rw [Function.update_of_ne hqp] at hq
      simpa [hqp] using h.waiting q T hq
  served := by
    intro d q status' hd
    obtain ⟨hwaits, hq⟩ := h.served d q status' hd
    have hqp : q ≠ p := by
      rintro rfl
      rw [hp] at hwaits
      cases hwaits
    exact ⟨by simpa [hqp] using hwaits, by simpa [hqp] using hq⟩
  unique := h.unique

theorem Explains.call (h : Explains obj events waits desk st) (hp : waits p = some Q)
    (hidle : ∀ status, Q status → status = .idle) (o : O) (Q' : Status O R → Prop)
    (hcalled : Q' (.called o)) :
    ∃ st', Step spec st st' ∧ Explains obj (events ++ [.call p o])
      (Function.update waits p (some Q')) desk st' :=
  ⟨_, Step.call o (hidle _ (h.waiting p Q hp)),
    h.move hp hcalled (by simp [Event.visible, h.events])⟩

theorem Explains.answer (h : Explains obj events waits desk st) (hp : waits p = some Q)
    {r : R} (hdecided : ∀ status, Q status → status = .decided r) (Q' : Status O R → Prop)
    (hidle : Q' .idle) :
    ∃ st', Step spec st st' ∧ Explains obj (events ++ [.answer p r])
      (Function.update waits p (some Q')) desk st' :=
  ⟨_, Step.answer (hdecided _ (h.waiting p Q hp)),
    h.move hp hidle (by simp [Event.visible, h.events])⟩

theorem Explains.refusal (h : Explains obj events waits desk st) (hp : waits p = some Q)
    (hcalled : ∀ status, Q status → ∃ o, status = .called o) (Q' : Status O R → Prop)
    (hidle : Q' .idle) :
    ∃ st', Step spec st st' ∧ Explains obj (events ++ [.refusal p])
      (Function.update waits p (some Q')) desk st' := by
  obtain ⟨o, ho⟩ := hcalled _ (h.waiting p Q hp)
  exact ⟨_, Step.refusal ho, h.move hp hidle (by simp [Event.visible, h.events])⟩

/-- A party that waits knows less. -/
theorem Explains.turn (h : Explains obj events waits desk st) (hp : waits p = some Q)
    (Q' : Status O R → Prop) (hQ : ∀ status, Q status → Q' status) :
    Explains obj events (Function.update waits p (some Q')) desk st := by
  have hmove := h.move hp (hQ _ (h.waiting p Q hp)) h.events
  rwa [Function.update_eq_self] at hmove

variable [DecidableEq D] {d : D}

/-- A desk takes a party on, which no other desk serves. -/
theorem Explains.take (h : Explains obj events waits desk st) (hp : waits p = some Q)
    (d : D) {status : Status O R} (hstatus : ∀ status', Q status' → status' = status) :
    Explains obj events (Function.update waits p none)
      (Function.update desk d (some (p, status))) st where
  obj := h.obj
  events := h.events
  waiting := by
    intro q T hq
    have hqp : q ≠ p := by
      rintro rfl
      simp at hq
    exact h.waiting q T (by simpa [hqp] using hq)
  served := by
    intro e q status' he
    by_cases hed : e = d
    · subst hed
      rw [Function.update_self, Option.some.injEq, Prod.mk.injEq] at he
      obtain ⟨rfl, rfl⟩ := he
      exact ⟨Function.update_self _ _ _, hstatus _ (h.waiting p Q hp)⟩
    · rw [Function.update_of_ne hed] at he
      obtain ⟨hwaits, hq⟩ := h.served e q status' he
      have hqp : q ≠ p := by
        rintro rfl
        rw [hp] at hwaits
        cases hwaits
      exact ⟨by simpa [hqp] using hwaits, hq⟩
  unique := by
    -- the party is at no desk yet
    have hother : ∀ e q status', Function.update desk d (some (p, status)) e =
        some (q, status') → (e = d ∧ q = p) ∨ (q ≠ p ∧ desk e = some (q, status')) := by
      intro e q status' he
      by_cases hed : e = d
      · subst hed
        rw [Function.update_self, Option.some.injEq, Prod.mk.injEq] at he
        exact Or.inl ⟨rfl, he.1.symm⟩
      · rw [Function.update_of_ne hed] at he
        refine Or.inr ⟨?_, he⟩
        rintro rfl
        rw [(h.served e q status' he).1] at hp
        cases hp
    intro e f q _ _ he hf
    rcases hother e q _ he with ⟨rfl, hq⟩ | ⟨hq, he⟩ <;>
      rcases hother f q _ hf with ⟨rfl, hq'⟩ | ⟨hq', hf⟩
    · rfl
    · exact absurd hq hq'
    · exact absurd hq' hq
    · exact h.unique e f q _ _ he hf

/-- A desk goes on with its party. -/
theorem Explains.go (h : Explains obj events waits desk st) {status status' : Status O R}
    (hd : desk d = some (p, status)) {trace : List (Event P O R)}
    (htrace : trace.filter Event.visible = events) :
    Explains obj' events waits (Function.update desk d (some (p, status')))
      { obj := obj'
        status := Function.update st.status p status'
        trace := trace } where
  obj := rfl
  events := htrace
  waiting := by
    intro q T hq
    have hqp : q ≠ p := by
      rintro rfl
      rw [(h.served d q status hd).1] at hq
      cases hq
    simpa [hqp] using h.waiting q T hq
  served := by
    intro e q new he
    by_cases hed : e = d
    · subst hed
      rw [Function.update_self, Option.some.injEq, Prod.mk.injEq] at he
      obtain ⟨rfl, rfl⟩ := he
      exact ⟨(h.served e p status hd).1, Function.update_self _ _ _⟩
    · rw [Function.update_of_ne hed] at he
      have hqp : q ≠ p := by
        rintro rfl
        exact hed (h.unique e d q _ _ he hd)
      obtain ⟨hwaits, hq⟩ := h.served e q new he
      exact ⟨hwaits, by simpa [hqp] using hq⟩
  unique := by
    have hsame : ∀ e q new, Function.update desk d (some (p, status')) e = some (q, new) →
        ∃ old, desk e = some (q, old) := by
      intro e q new he
      by_cases hed : e = d
      · subst hed
        rw [Function.update_self, Option.some.injEq, Prod.mk.injEq] at he
        exact ⟨status, he.1 ▸ hd⟩
      · rw [Function.update_of_ne hed] at he
        exact ⟨new, he⟩
    intro e f q _ _ he hf
    obtain ⟨_, he⟩ := hsame e q _ he
    obtain ⟨_, hf⟩ := hsame f q _ hf
    exact h.unique e f q _ _ he hf

/-- The operation takes effect at the desk. -/
theorem Explains.point {spec : O → S → R → S → Prop} (h : Explains obj events waits desk st)
    {o : O} {r : R} (hd : desk d = some (p, .called o)) (hspec : spec o obj r obj') :
    ∃ st', Step spec st st' ∧ Explains obj' events waits
      (Function.update desk d (some (p, .decided r))) st' := by
  have hcalled := (h.served d p _ hd).2
  rw [← h.obj] at hspec
  exact ⟨_, Step.point hcalled hspec, h.go hd (by simp [Event.visible, h.events])⟩

/-- A desk lets its party go, which from then on waits. -/
theorem Explains.back (h : Explains obj events waits desk st) {status : Status O R}
    (hd : desk d = some (p, status)) (Q : Status O R → Prop) (hQ : Q status) :
    Explains obj events (Function.update waits p (some Q)) (Function.update desk d none) st where
  obj := h.obj
  events := h.events
  waiting := by
    intro q T hq
    by_cases hqp : q = p
    · subst hqp
      rw [Function.update_self, Option.some.injEq] at hq
      rw [(h.served d q status hd).2, ← hq]
      exact hQ
    · rw [Function.update_of_ne hqp] at hq
      exact h.waiting q T hq
  served := by
    intro e q status' he
    have hed : e ≠ d := by
      rintro rfl
      simp at he
    rw [Function.update_of_ne hed] at he
    have hqp : q ≠ p := by
      rintro rfl
      exact hed (h.unique e d q _ _ he hd)
    obtain ⟨hwaits, hq⟩ := h.served e q status' he
    exact ⟨by simpa [hqp] using hwaits, hq⟩
  unique := by
    have hsame : ∀ e q status', Function.update desk d none e = some (q, status') →
        desk e = some (q, status') := by
      intro e q status' he
      have hed : e ≠ d := by
        rintro rfl
        simp at he
      rwa [Function.update_of_ne hed] at he
    exact fun e f q _ _ he hf => h.unique e f q _ _ (hsame e q _ he) (hsame f q _ hf)

omit [DecidableEq D] in
/-- A system that the atomic object goes along with shows linearizable histories. -/
theorem linearizable_of_explains {X : Type} {x₀ x : X} {step : X → X → Prop} {s : S}
    (obj : X → S) (events : X → List (Event P O R))
    (waits : X → P → Option (Status O R → Prop)) (desk : X → D → Option (P × Status O R))
    (hinit : Explains (obj x₀) (events x₀) (waits x₀) (desk x₀) (init P O R s))
    (hstep : ∀ x y st, Reach x₀ step x → Explains (obj x) (events x) (waits x) (desk x) st →
      step x y → ∃ st', (st' = st ∨ Step spec st st') ∧
        Explains (obj y) (events y) (waits y) (desk y) st')
    (hx : Reach x₀ step x) : Linearizable spec s (events x) (obj x) := by
  obtain ⟨st, hst, hexplains⟩ := hx.related
    (fun x st => Explains (obj x) (events x) (waits x) (desk x) st) hinit
    fun x y st hx _ h hxy => hstep x y st hx h hxy
  rw [← hexplains.obj, ← hexplains.events]
  exact linearizable_of_reach hst

end Desks

end MeDiE.Verified.Linear
