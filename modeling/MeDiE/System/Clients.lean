import MeDiE.System.Replicas

/-!
# What a client knows of an entry

A server answers a request whose version is not the version of its row with
`updateRetry` and its own row, and the client takes that row over.  The server
compares with `!=`, so a server that has not taken the latest table over yet tells
a client that has already heard of it to go back.
-/

namespace MeDiE.System

open MeDiE.Storage
open MeDiE.Verified
open MeDiE.Verified.Transition

variable {n nb : Nat} {A C : Type}

/-- No server takes a request whose version is larger than the version of its own
row, unless the entry is being transferred. -/
def NotAhead (l : Label nb C) (x : State n nb A C) : Prop :=
  match l with
  | .mainRecv s c =>
      match (x.client c).point with
      | .sent _ request =>
          (x.srv s).table.state request.index = false →
            request.entryVersion ≤ (x.srv s).table.nVer request.index
      | _ => True
  | _ => True

instance (l : Label nb C) (x : State n nb A C) : Decidable (NotAhead l x) := by
  unfold NotAhead
  split
  · split <;> infer_instance
  · infer_instance

/-- A request carries the version the client has, and the reply that is about to be
processed takes no version back. -/
def Current (client : Client.State n nb) : Prop :=
  match client.point with
  | .sent _ request => request.entryVersion = client.table.nVer request.index
  | .replied reply =>
      ∀ e, client.table.nVer e ≤ (Client.distributionPostReceive client.table reply).nVer e
  | _ => True

/-- The row that a server answers with is not older than the one the client has. -/
theorem current_refused {client : Client.State n nb} {table : Table.Mlt n (Fin nb)}
    {request : Request n} {reply : Reply n nb}
    (hversion : request.entryVersion = client.table.nVer request.index)
    (hahead : table.state request.index = false →
      request.entryVersion ≤ table.nVer request.index)
    (hrefuse : Server.distributionPostReceive table request = .refused reply) (e : Fin n) :
    client.table.nVer e ≤ (Client.distributionPostReceive client.table reply).nVer e := by
  unfold Server.distributionPostReceive at hrefuse
  split at hrefuse
  · cases hrefuse
    exact Nat.le_refl _
  · rename_i hstate
    split at hrefuse
    · cases hrefuse
      have hle := hahead (Bool.not_eq_true _ ▸ hstate)
      by_cases he : e = request.index
      · subst he
        simpa [Client.distributionPostReceive, hversion] using hle
      · simp [Client.distributionPostReceive, he]
    · cases hrefuse

variable [Eacl A n] [DecidableEq C]

theorem current_step {hash : Key → Fin n} {x y : State n nb A C} {l : Label nb C}
    (inv : ∀ c, Current (x.client c)) (hgood : NotAhead l x) (h : Step hash x l y) :
    ∀ c, Current (y.client c) := by
  let P : C → Client.State n nb → Prop := fun _ => Current
  cases h with
  | accept s c request hc hmain haccept => exact forall_setClient (P := P) inv trivial
  | refuse s c request reply hc hmain hrefuse =>
      have hversion := inv c
      rw [Current, hc] at hversion
      simp only [NotAhead, hc] at hgood
      exact forall_setClient (P := P) inv (current_refused hversion hgood hrefuse)
  | answer s c request done getValue hmain =>
      apply forall_setClient (P := P) inv
      intro e
      unfold replyOf
      split <;> exact Nat.le_refl _
  | clientSend c key reqType hc => exact forall_setClient (P := P) inv rfl
  | clientRecv c reply hc => exact forall_setClient (P := P) inv trivial
  | _ => exact inv

theorem current_of_run [NeZero nb] {hash : Key → Fin n} {x : State n nb A C}
    (hx : Reach (init n nb A C) (StepsIf (step hash) NotAhead) x) :
    ∀ c, Current (x.client c) := by
  apply hx.invariant
  · exact fun _ => trivial
  · rintro x y _ inv ⟨l, hgood, h⟩
    exact current_step inv hgood (step_cases h)

/-- In a step only the processing of a reply changes what a client knows, and it
takes no version back. -/
theorem nVer_le_of_step {hash : Key → Fin n} {x y : State n nb A C} {l : Label nb C}
    (inv : ∀ c, Current (x.client c)) (h : Step hash x l y) (e : Fin n) :
    ∀ c, (x.client c).table.nVer e ≤ (y.client c).table.nVer e := by
  let P : C → Client.State n nb → Prop := fun c client =>
    (x.client c).table.nVer e ≤ client.table.nVer e
  have hle : ∀ c, P c (x.client c) := fun c => Nat.le_refl _
  cases h with
  | accept s c request hc hmain haccept => exact forall_setClient (P := P) hle (hle c)
  | refuse s c request reply hc hmain hrefuse =>
      exact forall_setClient (P := P) hle (hle c)
  | answer s c request done getValue hmain =>
      exact forall_setClient (P := P) hle (hle c)
  | clientSend c key reqType hc => exact forall_setClient (P := P) hle (hle c)
  | clientRecv c reply hc =>
      have hcurrent := inv c
      rw [Current, hc] at hcurrent
      exact forall_setClient (P := P) hle (hcurrent e)
  | _ => exact hle

/-- In a run in which no server takes a request with a later version than that of its own
row, unless the entry is being transferred, no step takes back the version that a client
has for an entry. -/
theorem client_version_mono [NeZero nb] (hash : Key → Fin n) (x y : State n nb A C)
    (l : Label nb C) (hx : Reach (init n nb A C) (StepsIf (step hash) NotAhead) x)
    (h : step hash l x = some y) (c : C) (e : Fin n) :
    (x.client c).table.nVer e ≤ (y.client c).table.nVer e :=
  nVer_le_of_step (current_of_run hx) (step_cases h) e c

/-! ## Two runs -/

/-- Server 0 takes the table of the first round over and gives entry 0 away. -/
def releaseRun : List (System.Label 2 Unit) :=
  askRun ++ collectRun ++ [.manager, .managerSend, .manager] ++
    threadRun 0 .listener 6 ++ threadRun 0 .sender 7

/-- A request that is refused: the client sends it and server `s` answers. -/
def refusedRun (s : Fin 2) : List (System.Label 2 Unit) :=
  [.clientSend () keyA .read, .mainRecv s ()]

/-- Server 0 tells the client of version 1. -/
theorem client_version_mono_new_version :
    ∃ x y : SampleState, step sampleHash (.clientRecv ()) x = some y ∧
      (x.client ()).table.nVer 0 = 0 ∧ (y.client ()).table.nVer 0 = 1 ∧
        ∀ c e, (x.client c).table.nVer e ≤ (y.client c).table.nVer e := by
  have hrun : ((run (guarded (step sampleHash) NotAhead) (releaseRun ++ refusedRun 0)
      (init 4 2 (EaclIndedh.EaclData 4) Unit)).any fun x =>
        (step sampleHash (.clientRecv ()) x).any fun y =>
          decide ((x.client ()).table.nVer 0 = 0 ∧ (y.client ()).table.nVer 0 = 1)) =
      true := by
    decide +kernel
  obtain ⟨x, hx, hp⟩ := (Option.any_eq_true _ _).mp hrun
  obtain ⟨y, hy, hp⟩ := (Option.any_eq_true _ _).mp hp
  obtain ⟨hold, hnew⟩ := of_decide_eq_true hp
  exact ⟨x, y, hy, hold, hnew,
    client_version_mono sampleHash x y _ (reach_of_guarded_run _ hx) hy⟩

/-- Server 1, which has not seen the new table, takes the client back to version 0. -/
theorem exists_client_version_decreases :
    ∃ x y : SampleState, Reachable sampleHash x ∧
      step sampleHash (.clientRecv ()) x = some y ∧
        (y.client ()).table.nVer 0 < (x.client ()).table.nVer 0 := by
  obtain ⟨x, hx, hp⟩ := exists_of_sampleRun
    (releaseRun ++ refusedRun 0 ++ .clientRecv () :: refusedRun 1)
    (fun x => (step sampleHash (.clientRecv ()) x).any fun y =>
      decide ((y.client ()).table.nVer 0 < (x.client ()).table.nVer 0)) (by decide +kernel)
  obtain ⟨y, hy, hp⟩ := (Option.any_eq_true _ _).mp hp
  exact ⟨x, y, hx, hy, of_decide_eq_true hp⟩

end MeDiE.System
