import MeDiE.Server.SpotMoves
import MeDiE.System.Cases

/-!
# Names and entries

A client computes the entry of a key from the key, and a name stays with the entry it
has been put into the list of: in the list, in a packet and in the list of the next
server.
-/

namespace MeDiE.System

open MeDiE.Server
open MeDiE.Storage
open MeDiE.Verified
open MeDiE.Verified.Transition

variable {n nb : Nat} {A C : Type}

/-- A request is for the entry of its key. -/
def Indexed (hash : Key → Fin n) (client : Client.State n nb) : Prop :=
  ∀ idSrv request, client.point = .sent idSrv request → request.index = hash request.key

/-- Every name and every request is with the entry of its key. -/
structure NamedInv (hash : Key → Fin n) (x : State n nb A C) : Prop where
  client : ∀ c, Indexed hash (x.client c)
  srv : ∀ s, (x.srv s).Named hash

theorem named_distributionPreSend {hash : Key → Fin n} {head : List Key}
    {request : Request n} (hindex : request.index = hash request.key)
    (hhead : ∀ k ∈ head, hash k = request.index) (done : Bool) :
    ∀ k ∈ (distributionPreSend head request done).1, hash k = request.index := by
  intro k hk
  unfold distributionPreSend at hk
  split at hk
  · split at hk
    · rcases List.mem_cons.mp hk with rfl | hk
      · exact hindex.symm
      · exact hhead k hk
    · rw [mdEntrySearchMdName_eq] at hk
      split at hk
      · exact hhead k hk
      · rename_i head' hsearch
        split at hsearch
        · cases hsearch
          exact hhead k (List.mem_of_mem_erase hk)
        · cases hsearch
    · exact hhead k hk
    · exact hhead k hk
  · exact hhead k hk

theorem named_take {hash : Key → Fin n} {srv : Server.State n nb A C}
    (named : srv.Named hash) {sender : LoadSender n nb} {left : Nat}
    (hl : srv.listener = .transfer sender (.recv (left + 1))) (source : Fin nb)
    {packet : Packet n} (hpacket : ∀ k ∈ packet.names, hash k = packet.entry) :
    Server.State.Named hash
      { srv with
        listener := .transfer sender (.unpack source packet.entry packet.names left) } := by
  obtain ⟨listed, popped, packed, wired, waiting, request⟩ := named
  rw [hl] at popped packed
  refine ⟨listed, popped, packed, wired, ?_, request⟩
  intro e he k hk
  cases he
  exact hpacket k hk

variable [Eacl A n] [DecidableEq C]

theorem NamedInv.step {hash : Key → Fin n} {x y : State n nb A C} {l : Label nb C}
    (inv : NamedInv hash x) (h : Step hash x l y) : NamedInv hash y := by
  let P : Fin nb → Server.State n nb A C → Prop := fun _ srv => srv.Named hash
  let Q : C → Client.State n nb → Prop := fun _ client => Indexed hash client
  have hsame : ∀ s, ∀ srv : Server.State n nb A C, srv.inChargeMd = (x.srv s).inChargeMd →
      srv.listener = (x.srv s).listener → srv.wire = (x.srv s).wire →
        srv.main = (x.srv s).main → srv.Named hash := by
    intro s srv hlisted hl hwire hmain
    obtain ⟨listed, popped, packed, wired, waiting, request⟩ := inv.srv s
    exact ⟨hlisted ▸ listed, hl ▸ popped, hl ▸ packed, hwire ▸ wired, hl ▸ waiting,
      hmain ▸ request⟩
  cases h with
  | usrHandler2 => exact ⟨inv.client, inv.srv⟩
  | manager mgr h => exact ⟨inv.client, inv.srv⟩
  | recvHelp s epoch push hp hpush =>
      exact ⟨inv.client, forall_setSrv (P := P) inv.srv (hsame s _ rfl rfl rfl rfl)⟩
  | discardEacl s id sai loadLvl push hp hpush =>
      exact ⟨inv.client, forall_setSrv (P := P) inv.srv (hsame s _ rfl rfl rfl rfl)⟩
  | discardHelp s epoch nbRcv push hp hrcv hpush =>
      exact ⟨inv.client, forall_setSrv (P := P) inv.srv (hsame s _ rfl rfl rfl rfl)⟩
  | recvEacl s id sai loadLvl nbRcv push hp hrcv hpush =>
      exact ⟨inv.client, forall_setSrv (P := P) inv.srv (hsame s _ rfl rfl rfl rfl)⟩
  | sendAsk epoch hp => exact ⟨inv.client, fun s => hsame s _ rfl rfl rfl rfl⟩
  | sendMlt hp => exact ⟨inv.client, fun s => hsame s _ rfl rfl rfl rfl⟩
  | server s l srv h => exact ⟨inv.client, forall_setSrv (P := P) inv.srv ((inv.srv s).step h)⟩
  | takePacket w s sender left packet hw hwire =>
      refine ⟨inv.client, ?_⟩
      have hpacket : ∀ k ∈ packet.names, hash k = packet.entry :=
        (inv.srv s).wired (w, packet) hwire
      have hs : Server.State.Named hash { x.srv s with wire := none } := by
        obtain ⟨listed, popped, packed, wired, waiting, request⟩ := inv.srv s
        exact ⟨listed, popped, packed, fun p hp => (by cases hp), waiting, request⟩
      have htaken : ∀ v, P v ((x.setSrv s { x.srv s with wire := none }).srv v) :=
        forall_setSrv (P := P) inv.srv hs
      apply forall_setSrv (P := P) htaken
      exact named_take (htaken w) (listener_setSrv hw rfl) s hpacket
  | replyPacket w source sender entry left hw =>
      refine ⟨inv.client, ?_⟩
      have hacked : ∀ v, P v ((x.setSrv source { x.srv source with ack := true }).srv v) :=
        forall_setSrv (P := P) inv.srv
          (hsame source { x.srv source with ack := true } rfl rfl rfl rfl)
      apply forall_setSrv (P := P) hacked
      have hl : ((x.setSrv source { x.srv source with ack := true }).srv w).listener =
          .transfer sender (.reply source entry left) := listener_setSrv hw rfl
      obtain ⟨listed, popped, packed, wired, waiting, request⟩ := hacked w
      rw [hl] at popped packed
      exact ⟨listed, popped, packed, wired, fun e he => (by cases he), request⟩
  | accept s c request hc hmain haccept =>
      refine ⟨forall_setClient (P := Q) inv.client fun _ _ hp => (by cases hp), ?_⟩
      apply forall_setSrv (P := P) inv.srv
      obtain ⟨listed, popped, packed, wired, waiting, _⟩ := inv.srv s
      refine ⟨listed, popped, packed, wired, waiting, ?_⟩
      intro request' hmem
      cases hmem
      exact inv.client c s request hc
  | refuse s c request reply hc hmain hrefuse =>
      exact ⟨forall_setClient (P := Q) inv.client fun _ _ hp => (by cases hp), inv.srv⟩
  | answer s c request done getValue hmain =>
      refine ⟨forall_setClient (P := Q) inv.client fun _ _ hp => (by cases hp), ?_⟩
      apply forall_setSrv (P := P) inv.srv
      have hindex := (inv.srv s).request request (by rw [hmain]; rfl)
      obtain ⟨listed, popped, packed, wired, waiting, _⟩ := inv.srv s
      refine ⟨?_, popped, packed, wired, waiting, fun _ hmem => (by cases hmem)⟩
      intro e k hk
      by_cases he : e = request.index
      · subst he
        exact named_distributionPreSend hindex (listed _) done k (by simpa using hk)
      · exact listed e k (by simpa [he] using hk)
  | clientSend c key reqType hc =>
      refine ⟨forall_setClient (P := Q) inv.client ?_, inv.srv⟩
      intro idSrv request hp
      cases hp
      rfl
  | clientRecv c reply hc =>
      exact ⟨forall_setClient (P := Q) inv.client fun _ _ hp => (by cases hp), inv.srv⟩

variable [NeZero nb]

omit [DecidableEq C] in
theorem namedInv_init {hash : Key → Fin n} : NamedInv hash (init n nb A C) := by
  refine ⟨fun c idSrv request hp => (by cases hp), fun s => ?_⟩
  exact ⟨fun e k hk => (by cases hk), fun e k he => (by cases he), fun e he => (by cases he),
    fun p hp => (by cases hp), fun e he => (by cases he), fun request hmem => (by cases hmem)⟩

theorem namedInv_of_reachable {hash : Key → Fin n} {x : State n nb A C}
    (h : Reachable hash x) : NamedInv hash x :=
  h.invariant namedInv_init fun _ _ _ _ inv hstep => inv.step hstep

end MeDiE.System
