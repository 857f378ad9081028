import MeDiE.Launch.Servers

/-!
# The barrier of a step

In a run in which the steps are kept apart, every ack and every thread that is to create
one is of the step that the script is in.
-/

namespace MeDiE.Launch

open MeDiE.Storage
open MeDiE.System
open MeDiE.Verified
open MeDiE.Verified.Transition

variable {n nb : Nat} {A C : Type} [Eacl A n] [DecidableEq C]

/-! ## The system of a run -/

omit [Eacl A n] [DecidableEq C] in
@[simp] theorem afterStep_sys [Eacl A n] (b : State n nb A C) (l : System.Label nb C)
    (y : System.State n nb A C) : (afterStep b l y).sys = y := by
  unfold afterStep afterHandler
  split
  · split
    · dsimp only
      split <;> rfl
    · rfl
  · split <;> rfl
  · rfl

/-- A step is a step of the system or leaves it as it is. -/
theorem step_sys {hash : Key → Fin n} {l : Label nb C} {b b' : State n nb A C}
    (h : step hash l b = some b') :
    b'.sys = b.sys ∨ Steps (System.step hash) b.sys b'.sys := by
  cases l with
  | sys l =>
      rw [step] at h
      split at h
      · obtain ⟨y, hy, heq⟩ := Option.map_eq_some_iff.mp h
        refine Or.inr ⟨l, ?_⟩
        rw [← heq, afterStep_sys, hy]
      · cases h
  | kill s =>
      cases step_cases h with
      | kill s left hp hs => exact Or.inr ⟨.server s .usr2, rfl⟩
  | createAck0 s i =>
      cases step_cases h with
      | createAck0 s i k hi => exact Or.inl rfl
  | createAck1 s =>
      cases step_cases h with
      | createAck1 s k hk => exact Or.inl rfl
  | script =>
      cases step_cases h with
      | signalManager hp => exact Or.inr ⟨.usrHandler2, rfl⟩
      | _ => exact Or.inl rfl

variable [NeZero nb]

/-- The steps of the run meet a condition or not: the system's states are those of its
own runs. -/
theorem reachable_sys {hash : Key → Fin n} {good : Label nb C → State n nb A C → Prop}
    {b : State n nb A C} (h : Reach (init n nb A C) (StepsIf (step hash) good) b) :
    Reachable hash b.sys := by
  refine h.simulation State.sys ?_
  rintro b b' _ ⟨l, _, hl⟩
  exact step_sys hl

/-! ## The invariant -/

omit [DecidableEq C] in
theorem inv_init : Inv (init n nb A C) := by
  have hnone : ∀ s, ¬ (init n nb A C).point.signalled s := fun s h => h (List.mem_finRange s)
  constructor
  · exact fun s => ⟨fun h => absurd h (hnone s), fun _ => rfl,
      Handled.before (hnone s) rfl rfl rfl rfl⟩
  · constructor
    · exact fun h => h.elim
    · exact fun _ => rfl
    · intro h hat
      cases hat with
      | queued s hmem => cases hmem
      | inHand hp => cases hp
    · intro h hp
      simp [init, System.init, Manager.State.init] at hp
    · intro h hp
      cases hp
    · intro hp
      simp [init, System.init, Manager.State.init] at hp
    · intro j hj
      cases hj
    · intro hask
      cases hask
  · exact Round.quiet List.not_mem_nil rfl fun s => ⟨rfl, rfl, rfl⟩
  · exact List.nodup_finRange nb

/-- The threads of a transfer and the main loop of a server. -/
theorem Inv.thread {hash : Key → Fin n} {b : State n nb A C} (inv : Inv b)
    (hreach : Reachable hash b.sys) {s : Fin nb} {l : Server.Label}
    {srv : Server.State n nb A C} (h : Server.Step s (b.sys.srv s) l srv)
    (hl : l = .sender ∨ l = .receiver ∨ l = .main) :
    Inv { b with sys := b.sys.setSrv s srv } := by
  have hstep : System.Step hash b.sys (.server s l) (b.sys.setSrv s srv) :=
    System.Step.server s l srv h
  refine inv.others (askOrder_of_reachable hreach) hstep (fun w => ?_) (by simp) (by simp)
  by_cases hw : w = s
  · subst hw
    simpa using kept_server h hl
  · simpa [hw] using Kept.refl _

theorem Inv.sys {hash : Key → Fin n} {b : State n nb A C} (inv : Inv b)
    (hreach : Reachable hash b.sys) {l : System.Label nb C} {y : System.State n nb A C}
    (hallowed : allowed b l = true) (h : System.Step hash b.sys l y) :
    Inv (afterStep b l y) := by
  have horder := askOrder_of_reachable hreach
  cases l with
  | usrHandler2 => simp [allowed] at hallowed
  | managerSend => exact inv.managerSend horder (pollInv_of_reachable hreach) h
  | server s l =>
      cases h with
      | server s l srv h =>
          cases l with
          | usr2 => simp [allowed] at hallowed
          | handler i => exact inv.handler h
          | listener => exact inv.listener hreach h
          | sender => exact inv.thread hreach h (Or.inl rfl)
          | receiver => exact inv.thread hreach h (Or.inr (Or.inl rfl))
          | main => exact inv.thread hreach h (Or.inr (Or.inr rfl))
  | _ => exact inv.others horder h (h.kept (by simp) (by simp)) (by simp) (by simp)

omit [DecidableEq C] [NeZero nb] in
/-- The script finds the file of one more server. -/
theorem forall_lt_succ {P : Fin nb → Prop} {i : Nat} {hi : i < nb}
    (h : ∀ s : Fin nb, s.val < i → P s) (hP : P ⟨i, hi⟩) :
    ∀ s : Fin nb, s.val < i + 1 → P s := by
  intro s hs
  rcases Nat.lt_or_eq_of_le (Nat.le_of_lt_succ hs) with hlt | heq
  · exact h s hlt
  · have hs' : s = ⟨i, hi⟩ := Fin.ext heq
    exact hs' ▸ hP

theorem Inv.step {hash : Key → Fin n} {b b' : State n nb A C} (inv : Inv b)
    (hreach : Reachable hash b.sys) {l : Label nb C} (horderly : Orderly l b)
    (h : Step hash b l b') : Inv b' := by
  have hwaited := inv.waited
  cases h with
  | sys l y hallowed h => exact inv.sys hreach hallowed h
  | kill s left hp hs => exact inv.kill hp hs
  | createAck0 s i k hi => exact inv.createAck0 hi
  | createAck1 s k hk => exact inv.createAck1 hk
  | signalManager hp => exact inv.signalManager hp (horderly.1 rfl hp)
  | remove hp => exact inv.remove (askOrder_of_reachable hreach) hp (horderly.2 rfl hp)
  | signalled hp =>
      refine inv.setPoint (fun s => ?_) ?_ trivial
      · simp [hp, Point.signalled]
      · simp [hp, Point.managerSignalled]
  | found i hi hp hack =>
      rw [hp] at hwaited
      exact inv.wait (by rw [hp]; trivial) trivial (forall_lt_succ hwaited hack)
  | foundAll i hi hp =>
      rw [hp] at hwaited
      exact inv.wait (by rw [hp]; trivial) trivial fun s => hwaited s (s.isLt.trans_le hi)
  | searchFound hp =>
      exact inv.wait (by rw [hp]; trivial) trivial fun s hs => absurd hs (Nat.not_lt_zero _)
  | searchNone hp hnone =>
      rw [hp] at hwaited
      exact inv.wait (by rw [hp]; trivial) trivial
        (Or.inl fun s => (hwaited s).resolve_right fun h => h (hnone s))
  | found1 i hi hp hack =>
      rw [hp] at hwaited
      exact inv.wait (by rw [hp]; trivial) trivial (forall_lt_succ hwaited hack)
  | found1All i hi hp =>
      rw [hp] at hwaited
      exact inv.wait (by rw [hp]; trivial) trivial (Or.inr fun s => hwaited s (s.isLt.trans_le hi))

theorem inv_of_run {hash : Key → Fin n} {b : State n nb A C}
    (h : Reach (init n nb A C) (StepsIf (step hash) Orderly) b) : Inv b := by
  refine h.invariant inv_init ?_
  rintro b b' hb inv ⟨l, horderly, hl⟩
  exact inv.step (reachable_sys hb) horderly (step_cases hl)

/-! ## Acks and their step -/

omit [Eacl A n] [DecidableEq C] [NeZero nb] in
theorem ServerInv.step_of_ack0 {b : State n nb A C} {s : Fin nb} (inv : ServerInv b s)
    {k : Nat} (hk : b.ack0 s = some k ∨ k ∈ b.tags s ∨ k ∈ b.creating s) : k = b.step := by
  cases inv.handled with
  | before _ _ htags hcreating hack => simp [htags, hcreating, hack] at hk
  | running h _ _ htags hcreating hack => simpa [htags, hcreating, hack] using hk
  | creating _ _ htags hcreating hack => simpa [htags, hcreating, hack] using hk
  | acked _ _ htags hcreating hack =>
      have hk' : b.step = k := by simpa [htags, hcreating, hack] using hk
      exact hk'.symm
  | helped _ _ htags hcreating hack => simp [htags, hcreating, hack] at hk

omit [Eacl A n] [DecidableEq C] [NeZero nb] in
theorem Round.step_of_ack1 {b : State n nb A C} (inv : Round b) {s : Fin nb} {k : Nat}
    (hk : b.ack1 s = some k ∨ b.acking s = some k) : k = b.step := by
  cases inv with
  | quiet hask hmode hsrv => simp [hsrv s] at hk
  | running hask hmode hsrv => simp [hsrv s] at hk
  | closed hask hmode hsrv =>
      cases hsrv s with
      | commit _ hacking hack => simp [hacking, hack] at hk
      | acking _ hacking hack =>
          have hk' : b.step = k := by simpa [hacking, hack] using hk
          exact hk'.symm
      | acked _ hacking hack =>
          have hk' : b.step = k := by simpa [hacking, hack] using hk
          exact hk'.symm

/-- Where no handler is left when the files are removed, and the manager is not signalled
while it has a `HELP` in hand whose epoch it has found to be reached: every file, and
every handler and listener that is to create one, is of the step that the script is in.
Once the files of a step have been removed none is created for it any more. -/
theorem acks_of_step (hash : Key → Fin n) (b : State n nb A C)
    (hb : Reach (init n nb A C) (StepsIf (step hash) Orderly) b) (s : Fin nb) (k : Nat)
    (hk : b.ack0 s = some k ∨ b.ack1 s = some k ∨ k ∈ b.tags s ∨ k ∈ b.creating s ∨
      b.acking s = some k) : k = b.step := by
  have inv := inv_of_run hb
  rcases hk with hack | hack | htag | hcreating | hacking
  · exact (inv.server s).step_of_ack0 (Or.inl hack)
  · exact inv.round.step_of_ack1 (Or.inl hack)
  · exact (inv.server s).step_of_ack0 (Or.inr (Or.inl htag))
  · exact (inv.server s).step_of_ack0 (Or.inr (Or.inr hcreating))
  · exact inv.round.step_of_ack1 (Or.inr hacking)

/-! ## The first two steps -/

section Sample

abbrev SampleLaunch : Type := State 4 2 (EaclIndedh.EaclData 4) Unit

def sampleInit : SampleLaunch := init 4 2 (EaclIndedh.EaclData 4) Unit

/-- `SIGUSR2` to both servers and to the manager. -/
def killRun : List (Label 2 Unit) := [.kill 0, .kill 1, .script, .script]

/-- `k` steps of the handler of a server, which has 22 of them. -/
def handlerRun (s : Fin 2) (k : Nat) : List (Label 2 Unit) :=
  List.replicate k (.sys (.server s (.handler 0)))

/-- The manager takes a `HELP` and asks for the lists. -/
def helpRun : List (System.Label 2 Unit) :=
  [.managerRecv 0, .manager, .manager, .manager, .manager, .managerSend]

/-- Server 0 asks for a rebalancing in the first step, in which entry 0 is given to
server 1.  The handler of server 1 makes the steps `ls` before the script has found the
files of both and has removed them. -/
def roundRun (ls : List (Label 2 Unit)) : List (Label 2 Unit) :=
  (requestRun 0 keyA (.create .empty) ++ requestRun 0 keyK (.create .empty) ++
    requestRun 0 keyA (.update .empty) ++ requestRun 0 keyK (.update .empty)).map .sys ++
    killRun ++ handlerRun 0 22 ++ ls ++ (helpRun ++ collectRun ++ transferRun).map .sys ++
    [.createAck1 0, .createAck1 1] ++ List.replicate 8 .script

/-- Server 0 gets one request more, and in the second step it needs no rebalancing. -/
def secondRun : List (Label 2 Unit) :=
  (requestRun 0 keyK (.update .empty)).map .sys ++ killRun ++ handlerRun 0 22 ++
    [.createAck0 0 0]

end Sample

/-- Both handlers of the first step end before its files are removed, and the file of the
second step is of the second step. -/
theorem acks_of_step_second_step :
    ∃ b : SampleLaunch, b.ack0 0 = some 2 ∧ (2 : Nat) = b.step := by
  have hrun : ((run (guarded (step sampleHash) Orderly)
      (roundRun (handlerRun 1 22 ++ [.createAck0 1 0]) ++ secondRun) sampleInit).any
        fun b => decide (b.ack0 0 = some 2)) = true := by
    decide +kernel
  obtain ⟨b, hb, hp⟩ := (Option.any_eq_true _ _).mp hrun
  have hack := of_decide_eq_true hp
  exact ⟨b, hack, acks_of_step sampleHash b (reach_of_guarded_run _ hb) 0 2 (Or.inl hack)⟩

/-- The handler of server 1 has not yet compared its load when the files of the first step
are removed.  Its file of the first step lets the script through the second one, in which
server 1 has not answered. -/
theorem exists_ack_of_earlier_step :
    ∃ b : SampleLaunch, Reach sampleInit (Steps (step sampleHash)) b ∧ b.step = 2 ∧
      b.point = .remove ∧ b.ack0 1 = some 1 ∧ 2 ∈ b.tags 1 := by
  have hrun : ((run (step sampleHash)
      (roundRun (handlerRun 1 21) ++ handlerRun 1 1 ++ [.createAck0 1 0] ++ secondRun ++
        List.replicate 4 .script) sampleInit).any
        fun b => decide (b.step = 2 ∧ b.point = .remove ∧ b.ack0 1 = some 1 ∧
          2 ∈ b.tags 1)) = true := by
    decide +kernel
  obtain ⟨b, hb, hp⟩ := (Option.any_eq_true _ _).mp hrun
  exact ⟨b, reach_of_run _ Reach.start hb, of_decide_eq_true hp⟩

end MeDiE.Launch
