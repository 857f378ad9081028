import MeDiE.Verified.Transition

/-!
# Poll, collect, commit

A coordinator polls all parties, collects their replies, and then sends every
party a commit message.  Replies carry no round number and are only counted, and
parties take their messages in order.  The rounds are kept apart all the same:
a party answers a poll only after it has finished the commit before it, so when
as many replies as there are parties have come in, each party has replied once
and none of them has anything left to do.

A party may drop a poll, or may not, by a parameter of the system.  Where it may
not, a party that is waited for has the poll or its reply is on the way.
-/

namespace MeDiE.Verified.Poll

variable {σ : Type} [DecidableEq σ]

/-- What a coordinator sends. -/
inductive Msg
  | ask
  | commit
  deriving DecidableEq

/-- Where the coordinator is in a round. -/
inductive Mode
  | rest
  | collecting
  | collected
  deriving DecidableEq

/-- `pending p` is what party `p` is working on, followed by its inbox; `got` are
the parties whose replies of this round have been collected. -/
structure State (σ : Type) where
  mode : Mode
  got : List σ
  pending : σ → List Msg
  replies : σ → Nat

/-- Nothing has been sent yet. -/
def init (σ : Type) : State σ where
  mode := .rest
  got := []
  pending := fun _ => []
  replies := fun _ => 0

/-- A party may leave a poll without an answer if `drops` holds; a reply that comes in
while the coordinator is at rest is thrown away. -/
inductive Step [Fintype σ] (drops : Prop) : State σ → State σ → Prop
  | ask {st : State σ} (hmode : st.mode = .rest) :
      Step drops st
        { st with
          mode := .collecting
          got := []
          pending := fun p => st.pending p ++ [.ask] }
  | answer {st : State σ} {p : σ} {rest : List Msg} (hp : st.pending p = .ask :: rest) :
      Step drops st
        { st with
          pending := Function.update st.pending p rest
          replies := Function.update st.replies p (st.replies p + 1) }
  | drop {st : State σ} {p : σ} {rest : List Msg} (hdrops : drops)
      (hp : st.pending p = .ask :: rest) :
      Step drops st { st with pending := Function.update st.pending p rest }
  | collect {st : State σ} {p : σ} {r : Nat} (hmode : st.mode = .collecting)
      (hp : st.replies p = r + 1) :
      Step drops st
        { st with
          got := st.got ++ [p]
          replies := Function.update st.replies p r }
  | discard {st : State σ} {p : σ} {r : Nat} (hmode : st.mode = .rest)
      (hp : st.replies p = r + 1) :
      Step drops st { st with replies := Function.update st.replies p r }
  | close {st : State σ} (hmode : st.mode = .collecting)
      (hgot : st.got.length = Fintype.card σ) :
      Step drops st { st with mode := .collected }
  | commit {st : State σ} (hmode : st.mode = .collected) :
      Step drops st
        { st with
          mode := .rest
          pending := fun p => st.pending p ++ [.commit] }
  | finish {st : State σ} {p : σ} {rest : List Msg}
      (hp : st.pending p = .commit :: rest) :
      Step drops st { st with pending := Function.update st.pending p rest }

/-- Where a party is that has been polled and not been collected. -/
def Asked (drops : Prop) (pending : List Msg) (replies : Nat) : Prop :=
  (pending = [] ∧ replies = 1) ∨
    (replies = 0 ∧ (drops ∧ pending = [] ∨ pending = [.ask] ∨ pending = [.commit, .ask]))

/-- The rounds are kept apart. -/
structure Inv (drops : Prop) (st : State σ) : Prop where
  rest : st.mode = .rest → ∀ p,
    (st.pending p = [] ∨ st.pending p = [.commit]) ∧ st.replies p = 0
  nodup : st.mode ≠ .rest → st.got.Nodup
  got : st.mode ≠ .rest → ∀ p ∈ st.got, st.pending p = [] ∧ st.replies p = 0
  asked : st.mode = .collecting → ∀ p, p ∉ st.got →
    Asked drops (st.pending p) (st.replies p)
  all : st.mode = .collected → ∀ p, p ∈ st.got

variable {drops : Prop}

omit [DecidableEq σ] in
theorem inv_init : Inv drops (init σ) where
  rest := fun _ _ => ⟨Or.inl rfl, rfl⟩
  nodup := fun h => absurd rfl h
  got := fun h => absurd rfl h
  asked := fun h => by cases h
  all := fun h => by cases h

omit [DecidableEq σ] in
/-- With a message pending a party has been polled and not collected, or the
coordinator is at rest and the message is the last commit. -/
theorem Inv.of_pending {st : State σ} (inv : Inv drops st) {p : σ} {m : Msg} {rest : List Msg}
    (hp : st.pending p = m :: rest) :
    (st.mode = .rest ∧ m = .commit ∧ rest = []) ∨
      (st.mode = .collecting ∧ p ∉ st.got ∧ st.replies p = 0 ∧
        ((m = .ask ∧ rest = []) ∨ (m = .commit ∧ rest = [.ask]))) := by
  cases hmode : st.mode with
  | rest =>
      have h := (inv.rest hmode p).1
      rw [hp] at h
      simpa using h
  | collecting =>
      have hgot : p ∉ st.got := by
        intro hmem
        have h := (inv.got (by simp [hmode]) p hmem).1
        simp [hp] at h
      have h := inv.asked hmode p hgot
      rw [hp] at h
      simp only [Asked, false_and, false_or, and_false, List.cons.injEq,
        List.cons_ne_nil] at h
      exact Or.inr ⟨rfl, hgot, h.1, h.2⟩
  | collected =>
      have h := (inv.got (by simp [hmode]) p (inv.all hmode p)).1
      simp [hp] at h

/-- A change of one polled party that keeps it polled. -/
theorem Inv.party {st : State σ} (inv : Inv drops st) {p : σ}
    (hmode : st.mode = .collecting) (hgot : p ∉ st.got) (pending : List Msg)
    (replies : Nat) (h : Asked drops pending replies) :
    Inv drops { st with
      pending := Function.update st.pending p pending
      replies := Function.update st.replies p replies } := by
  constructor
  · intro hrest
    simp [hmode] at hrest
  · exact inv.nodup
  · intro hne q hq
    have hqp : q ≠ p := fun heq => hgot (heq ▸ hq)
    simpa [hqp] using inv.got hne q hq
  · intro hcoll q hq
    by_cases hqp : q = p
    · subst hqp
      simpa using h
    · simpa [hqp] using inv.asked hcoll q hq
  · exact inv.all

variable [Fintype σ]

theorem Inv.step {st st' : State σ} (inv : Inv drops st) (h : Step drops st st') :
    Inv drops st' := by
  cases h with
  | ask hmode =>
      constructor
      · intro h
        cases h
      · exact fun _ => List.nodup_nil
      · intro _ p hp
        simp at hp
      · intro _ p _
        have hp := inv.rest hmode p
        show Asked drops (st.pending p ++ [.ask]) (st.replies p)
        rcases hp.1 with h | h <;> simp [Asked, h, hp.2]
      · intro h
        cases h
  | @answer p rest hp =>
      rcases inv.of_pending hp with ⟨_, hm, _⟩ | ⟨hmode, hgot, hrep, hcase⟩
      · cases hm
      · have hrest : rest = [] := by simpa using hcase
        have h := inv.party hmode hgot rest (st.replies p + 1)
          (Or.inl ⟨hrest, by omega⟩)
        exact h
  | @drop p rest hdrops hp =>
      rcases inv.of_pending hp with ⟨_, hm, _⟩ | ⟨hmode, hgot, hrep, hcase⟩
      · cases hm
      · have hrest : rest = [] := by simpa using hcase
        have h := inv.party hmode hgot rest (st.replies p)
          (Or.inr ⟨hrep, Or.inl ⟨hdrops, hrest⟩⟩)
        rwa [Function.update_eq_self] at h
  | @collect p r hmode hp =>
      have hgot : p ∉ st.got := by
        intro hmem
        have h := (inv.got (by simp [hmode]) p hmem).2
        omega
      have hasked := inv.asked hmode p hgot
      have hone : st.pending p = [] ∧ r = 0 := by
        rcases hasked with ⟨hpend, hrep⟩ | ⟨hrep, _⟩
        · exact ⟨hpend, by omega⟩
        · omega
      constructor
      · intro hrest
        simp [hmode] at hrest
      · intro hne
        show (st.got ++ [p]).Nodup
        rw [List.nodup_append]
        refine ⟨inv.nodup hne, List.nodup_singleton p, fun a ha b hb => ?_⟩
        rw [List.mem_singleton.mp hb]
        exact fun heq => hgot (heq ▸ ha)
      · intro hne q hq
        by_cases hqp : q = p
        · subst hqp
          simpa using hone
        · have hq' : q ∈ st.got := by simpa [hqp] using hq
          simpa [hqp] using inv.got hne q hq'
      · intro hcoll q hq
        have hq' : q ∉ st.got ∧ q ≠ p := by simpa using hq
        simpa [hq'.2] using inv.asked hcoll q hq'.1
      · intro hcoll
        simp [hmode] at hcoll
  | @discard p r hmode hp =>
      have h := (inv.rest hmode p).2
      omega
  | close hmode hgot =>
      have hall : ∀ p, p ∈ st.got := by
        have hnodup := inv.nodup (by simp [hmode])
        have huniv : st.got.toFinset = Finset.univ := by
          apply Finset.eq_univ_of_card
          rw [List.toFinset_card_of_nodup hnodup, hgot]
        intro p
        rw [← List.mem_toFinset, huniv]
        exact Finset.mem_univ p
      constructor
      · intro h
        cases h
      · exact fun _ => inv.nodup (by simp [hmode])
      · exact fun _ => inv.got (by simp [hmode])
      · intro h
        cases h
      · exact fun _ => hall
  | commit hmode =>
      constructor
      · intro _ p
        have h := inv.got (by simp [hmode]) p (inv.all hmode p)
        show (st.pending p ++ [.commit] = [] ∨ st.pending p ++ [.commit] = [.commit]) ∧
          st.replies p = 0
        simp [h]
      · intro h
        exact absurd rfl h
      · intro h
        exact absurd rfl h
      · intro h
        cases h
      · intro h
        cases h
  | @finish p rest hp =>
      rcases inv.of_pending hp with ⟨hmode, _, hrest⟩ | ⟨hmode, hgot, hrep, hcase⟩
      · subst hrest
        constructor
        · intro _ q
          by_cases hqp : q = p
          · subst hqp
            simpa using (inv.rest hmode q).2
          · simpa [hqp] using inv.rest hmode q
        · exact fun h => absurd hmode h
        · exact fun h => absurd hmode h
        · intro h
          simp [hmode] at h
        · intro h
          simp [hmode] at h
      · have hrest : rest = [.ask] := by simpa using hcase
        have h := inv.party hmode hgot rest (st.replies p)
          (Or.inr ⟨hrep, Or.inr (Or.inl hrest)⟩)
        rwa [Function.update_eq_self] at h

/-- The rounds are kept apart along every run. -/
theorem inv_of_reach {st : State σ}
    (h : Transition.Reach (init σ) (Step drops) st) : Inv drops st :=
  h.invariant inv_init fun _ _ _ inv hstep => inv.step hstep

/-! ## Consequences -/

omit [Fintype σ] [DecidableEq σ] in
/-- When no poll may be dropped, a party that is waited for has the poll or its
reply is on the way. -/
theorem Inv.waiting {st : State σ} (inv : Inv False st) (hmode : st.mode = .collecting)
    {p : σ} (hp : p ∉ st.got) : st.replies p = 1 ∨ .ask ∈ st.pending p := by
  rcases inv.asked hmode p hp with ⟨_, hrep⟩ | ⟨_, ⟨hdrops, _⟩ | hpend | hpend⟩
  · exact Or.inl hrep
  · exact hdrops.elim
  · exact Or.inr (by simp [hpend])
  · exact Or.inr (by simp [hpend])

omit [Fintype σ] [DecidableEq σ] in
/-- No party ever has two commits on its hands. -/
theorem Inv.count_commit {st : State σ} (inv : Inv drops st) (p : σ) :
    (st.pending p).count .commit ≤ 1 := by
  cases hpend : st.pending p with
  | nil => exact Nat.zero_le 1
  | cons m rest =>
      rcases inv.of_pending hpend with ⟨_, _, hrest⟩ | ⟨_, _, _, ⟨hm, hrest⟩ | ⟨_, hrest⟩⟩
      · rw [hrest]
        exact List.count_le_length
      · rw [hrest]
        exact List.count_le_length
      · rw [hrest]
        cases m <;> decide

omit [Fintype σ] [DecidableEq σ] in
/-- When the replies are collected nobody has anything on its hands. -/
theorem Inv.pending_of_collected {st : State σ} (inv : Inv drops st)
    (hmode : st.mode = .collected) (p : σ) : st.pending p = [] :=
  (inv.got (by simp [hmode]) p (inv.all hmode p)).1

/-- The replies are collected when there is one from every party. -/
theorem Inv.count_of_collected {st : State σ} (inv : Inv drops st)
    (hmode : st.mode = .collected) :
    st.got.length = Fintype.card σ ∧ ∀ p, st.got.count p = 1 := by
  have hnodup := inv.nodup (by simp [hmode])
  have hall := inv.all hmode
  constructor
  · rw [← List.toFinset_card_of_nodup hnodup, Finset.card_eq_iff_eq_univ]
    exact Finset.eq_univ_of_forall fun p => List.mem_toFinset.mpr (hall p)
  · exact fun p => List.count_eq_one_of_mem hnodup (hall p)

end MeDiE.Verified.Poll
