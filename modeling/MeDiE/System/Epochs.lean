import MeDiE.Eacl.Windowed
import MeDiE.System.Replicas

/-!
# The epoch an answer is computed for

An `ASK` carries the epoch whose list is wanted.  A listener compares it with the epoch
of its own list and then reads the list, and a handler of `SIGUSR2` may compute the
next one in between.  `Epochs` is a history beside a server: for which epoch it has
computed which list, and which epoch its listener has been asked for.
-/

namespace MeDiE.Server

open MeDiE.System
open MeDiE.Table

variable {n nb : Nat} {A C : Type}

/-- What a server has computed.  `tags` has the epoch of every handler that is under
way, `computed k` the indices and the load as the handler of epoch `k` left them, with
the indices that transfers have cleared since, and `needed` is the epoch of the `ASK` in
hand. -/
structure Epochs (n : Nat) where
  tags : List Nat
  computed : Nat → Option ((Fin n → Nat) × Nat)
  needed : Nat

/-- An entry has been cleared. -/
def Epochs.cleared (g : Epochs n) (e : Fin n) : Epochs n :=
  { g with computed := fun k => (g.computed k).map fun l => (Function.update l.1 e 0, l.2) }

/-- The handler is in `eacl_calculate_sai`, or is about to call it. -/
def calculating : Handler n → Bool
  | .calculateSai => true
  | .loadSai _ => true
  | .loadCount _ _ => true
  | .storeSai _ _ => true
  | .addLoad _ => true
  | _ => false

/-- The handler is still to set `eacl_epoch`. -/
def computing : Handler n → Bool
  | .setEaclEpoch => true
  | h => calculating h

/-- The handler has begun to compute the list of its epoch and has not said so. -/
def ahead : Handler n → Bool
  | .calculateSai => false
  | h => computing h

/-- The listener has seen that its list is of the epoch asked for and has not sent it. -/
def reading (srv : State n nb A C) : Bool :=
  match srv.listener with
  | .waitEpoch epochNeeded => epochNeeded ≤ srv.eaclEpoch
  | .readSai => true
  | .sendEacl _ => true
  | _ => false

/-- The epoch that the listener is about to compare with that of its list. -/
def comparing : Listener n nb → Option Nat
  | .checkEpoch epochNeeded => some epochNeeded
  | _ => none

variable [Eacl A n]

/-- What an `EACL` would carry. -/
def contents (accessList : A) : (Fin n → Nat) × Nat :=
  (Eacl.sai accessList, Eacl.readLoadLvl accessList)

/-- Nothing has been computed yet; the list is the one that the server starts with. -/
def Epochs.init (n : Nat) (A : Type) [Eacl A n] : Epochs n where
  tags := []
  computed k := if k = 0 then some (contents (Eacl.eaclInit : A)) else none
  needed := 0

/-- The history after a step of the server. -/
def Epochs.record (l : Label) (srv srv' : State n nb A C) (g : Epochs n) : Epochs n :=
  match l with
  | .usr2 => { g with tags := g.tags ++ [srv'.epoch] }
  | .handler i =>
      match srv.handlers[i]? with
      | some (.loadSai j) =>
          if j < n then g
          else
            { g with
              computed := Function.update g.computed (g.tags.getD i 0)
                (some (contents srv'.accessList)) }
      | some (.askRebalancing _ _) => { g with tags := g.tags.eraseIdx i }
      | _ => g
  | .listener =>
      match srv.listener with
      | .checkEpoch epochNeeded => { g with needed := epochNeeded }
      | _ => g
  | .sender =>
      match srv.listener with
      | .transfer (.resetEacl entry _) _ => g.cleared entry
      | _ => g
  | .receiver =>
      match srv.listener with
      | .transfer _ (.resetEacl _ entry _) => g.cleared entry
      | _ => g
  | .main => g

/-- Nothing is computed between the comparison of the epochs and the `EACL`.
`SIGUSR2` comes when no handler is still to set `eacl_epoch`; a handler computes when
the listener is not reading; and the listener does not find its list to be of the epoch
asked for while a handler has begun to compute the next one and is still to say so. -/
def Undisturbed (srv : State n nb A C) : Label → Prop
  | .usr2 => ∀ h ∈ srv.handlers, computing h = false
  | .handler i => (srv.handlers[i]?).any calculating = true → reading srv = false
  | .listener =>
      comparing srv.listener = some srv.eaclEpoch → ∀ h ∈ srv.handlers, ahead h = false
  | .sender => True
  | .receiver => True
  | .main => True

instance (srv : State n nb A C) : (l : Label) → Decidable (Undisturbed srv l)
  | .usr2 => inferInstanceAs (Decidable (∀ h ∈ srv.handlers, computing h = false))
  | .handler i => inferInstanceAs
      (Decidable ((srv.handlers[i]?).any calculating = true → reading srv = false))
  | .listener => inferInstanceAs
      (Decidable (comparing srv.listener = some srv.eaclEpoch →
        ∀ h ∈ srv.handlers, ahead h = false))
  | .sender => isTrue trivial
  | .receiver => isTrue trivial
  | .main => isTrue trivial

/-! ## What the handlers have computed -/

/-- The handlers that are still to set `eacl_epoch`, with their epochs. -/
def work (handlers : List (Handler n)) (tags : List Nat) : List (Handler n × Nat) :=
  (handlers.zip tags).filter fun p => computing p.1

theorem work_append {hs hs' : List (Handler n)} {ts ts' : List Nat}
    (hlength : hs.length = ts.length) :
    work (hs ++ hs') (ts ++ ts') = work hs ts ++ work hs' ts' := by
  rw [work, List.zip_append hlength, List.filter_append]
  rfl

theorem work_cons (h : Handler n) (t : Nat) (hs : List (Handler n)) (ts : List Nat) :
    work (h :: hs) (t :: ts) = (if computing h then [(h, t)] else []) ++ work hs ts := by
  cases hcase : computing h <;> simp [work, hcase]

theorem work_eq_nil {hs : List (Handler n)} {ts : List Nat}
    (h : ∀ h ∈ hs, computing h = false) : work hs ts = [] := by
  rw [work, List.filter_eq_nil_iff]
  intro p hp
  rw [h p.1 (List.of_mem_zip hp).1]
  exact Bool.false_ne_true

/-- A handler and its tag, between those before and those behind it. -/
theorem exists_split {hs : List (Handler n)} {ts : List Nat} (hlength : ts.length = hs.length)
    {i : Nat} {h : Handler n} (hi : hs[i]? = some h) :
    ∃ hs₁ hs₂ ts₁ t ts₂, hs = hs₁ ++ h :: hs₂ ∧ ts = ts₁ ++ t :: ts₂ ∧
      hs₁.length = i ∧ ts₁.length = i := by
  obtain ⟨hlt, rfl⟩ := List.getElem?_eq_some_iff.mp hi
  have hlt' : i < ts.length := by omega
  refine ⟨hs.take i, hs.drop (i + 1), ts.take i, ts[i], ts.drop (i + 1), ?_, ?_, ?_, ?_⟩
  · rw [List.getElem_cons_drop, List.take_append_drop]
  · rw [List.getElem_cons_drop, List.take_append_drop]
  · exact List.length_take_of_le (by omega)
  · exact List.length_take_of_le (by omega)

/-- A handler that has set `eacl_epoch` goes on. -/
theorem work_set {hs : List (Handler n)} {ts : List Nat} (hlength : ts.length = hs.length)
    {i : Nat} {h h' : Handler n} (hi : hs[i]? = some h) (hdone : computing h = false)
    (hdone' : computing h' = false) : work (hs.set i h') ts = work hs ts := by
  obtain ⟨hs₁, hs₂, ts₁, t, ts₂, rfl, rfl, hlen, hlen'⟩ := exists_split hlength hi
  rw [← hlen, List.set_append_right _ _ (Nat.le_refl _), Nat.sub_self, List.set_cons_zero,
    work_append (by omega), work_append (by omega)]
  simp [work, hdone, hdone']

theorem work_eraseIdx {hs : List (Handler n)} {ts : List Nat} (hlength : ts.length = hs.length)
    {i : Nat} {h : Handler n} (hi : hs[i]? = some h) (hdone : computing h = false) :
    work (hs.eraseIdx i) (ts.eraseIdx i) = work hs ts := by
  obtain ⟨hs₁, hs₂, ts₁, t, ts₂, rfl, rfl, hlen, hlen'⟩ := exists_split hlength hi
  rw [List.eraseIdx_append_of_length_le (by omega), List.eraseIdx_append_of_length_le (by omega),
    hlen, hlen', Nat.sub_self, List.eraseIdx_zero, List.eraseIdx_zero, List.tail_cons,
    List.tail_cons, work_append (by omega), work_append (by omega)]
  simp [work, hdone]

/-- Where only one handler is still to set `eacl_epoch`, it is the one that moves. -/
theorem work_single {hs : List (Handler n)} {ts : List Nat} (hlength : ts.length = hs.length)
    {i : Nat} {h h₀ : Handler n} {t₀ : Nat} (hi : hs[i]? = some h) (hcomputing : computing h = true)
    (hwork : work hs ts = [(h₀, t₀)]) (h' : Handler n) :
    h = h₀ ∧ ts.getD i 0 = t₀ ∧
      work (hs.set i h') ts = if computing h' then [(h', t₀)] else [] := by
  obtain ⟨hs₁, hs₂, ts₁, t, ts₂, rfl, rfl, hlen, hlen'⟩ := exists_split hlength hi
  rw [work_append (by omega), work_cons, if_pos hcomputing] at hwork
  have hcount := congrArg List.length hwork
  simp only [List.length_append, List.length_cons, List.length_nil] at hcount
  have hbefore : work hs₁ ts₁ = [] := List.length_eq_zero_iff.mp (by omega)
  have hbehind : work hs₂ ts₂ = [] := List.length_eq_zero_iff.mp (by omega)
  rw [hbefore, hbehind] at hwork
  cases hwork
  refine ⟨rfl, ?_, ?_⟩
  · simp [← hlen']
  · rw [← hlen, List.set_append_right _ _ (Nat.le_refl _), Nat.sub_self, List.set_cons_zero,
      work_append (by omega), work_cons, hbefore, hbehind, List.nil_append, List.append_nil]

theorem work_ne_nil {hs : List (Handler n)} {ts : List Nat} (hlength : ts.length = hs.length)
    {i : Nat} {h : Handler n} (hi : hs[i]? = some h) (hcomputing : computing h = true) :
    work hs ts ≠ [] := by
  obtain ⟨hs₁, hs₂, ts₁, t, ts₂, rfl, rfl, hlen, hlen'⟩ := exists_split hlength hi
  rw [work_append (by omega), work_cons, if_pos hcomputing]
  simp

theorem mem_of_work {hs : List (Handler n)} {ts : List Nat} {h : Handler n} {t : Nat}
    (hwork : work hs ts = [(h, t)]) : h ∈ hs := by
  have hmem : (h, t) ∈ work hs ts := by simp [hwork]
  exact (List.of_mem_zip (List.mem_filter.mp hmem).1).1

/-- At most one handler is still to set `eacl_epoch`, and the list is the one
computed for `eacl_epoch`, or for the next epoch if that handler has computed it.  In
between the list is neither of them, and nobody reads it. -/
inductive Phase (srv : State n nb A C) (g : Epochs n) : Prop
  | idle (hwork : work srv.handlers g.tags = []) (hepoch : srv.epoch = srv.eaclEpoch)
      (hlist : g.computed srv.eaclEpoch = some (contents srv.accessList))
  | called (hwork : work srv.handlers g.tags = [(.calculateSai, srv.epoch)])
      (hepoch : srv.epoch = srv.eaclEpoch + 1)
      (hlist : g.computed srv.eaclEpoch = some (contents srv.accessList))
  | calculating (h : Handler n) (hin : calculating h = true) (hahead : ahead h = true)
      (hwork : work srv.handlers g.tags = [(h, srv.epoch)])
      (hepoch : srv.epoch = srv.eaclEpoch + 1) (hreading : reading srv = false)
  | setting (hwork : work srv.handlers g.tags = [(.setEaclEpoch, srv.epoch)])
      (hepoch : srv.epoch = srv.eaclEpoch + 1)
      (hlist : g.computed srv.epoch = some (contents srv.accessList))

theorem Phase.congr {srv srv' : State n nb A C} {g g' : Epochs n} (inv : Phase srv g)
    (hwork : work srv'.handlers g'.tags = work srv.handlers g.tags)
    (hepoch : srv'.epoch = srv.epoch) (heaclEpoch : srv'.eaclEpoch = srv.eaclEpoch)
    (hlist : ∀ k, g.computed k = some (contents srv.accessList) →
      g'.computed k = some (contents srv'.accessList))
    (hreading : reading srv = false → reading srv' = false) : Phase srv' g' := by
  cases inv with
  | idle hwork' hepoch' hlist' =>
      apply Phase.idle
      · rw [hwork, hwork']
      · rw [hepoch, heaclEpoch, hepoch']
      · rw [heaclEpoch]
        exact hlist _ hlist'
  | called hwork' hepoch' hlist' =>
      apply Phase.called
      · rw [hwork, hwork', hepoch]
      · rw [hepoch, heaclEpoch, hepoch']
      · rw [heaclEpoch]
        exact hlist _ hlist'
  | calculating h hin hahead hwork' hepoch' hreading' =>
      apply Phase.calculating h hin hahead
      · rw [hwork, hwork', hepoch]
      · rw [hepoch, heaclEpoch, hepoch']
      · exact hreading hreading'
  | setting hwork' hepoch' hlist' =>
      apply Phase.setting
      · rw [hwork, hwork', hepoch]
      · rw [hepoch, heaclEpoch, hepoch']
      · rw [hepoch]
        exact hlist _ hlist'

/-- The listener has compared the epochs and has not sent its `EACL`. -/
def answering : Listener n nb → Bool
  | .waitEpoch _ => true
  | .readSai => true
  | .sendEacl _ => true
  | _ => false

omit [Eacl A n] in
theorem reading_of_not_answering {srv : State n nb A C}
    (h : answering srv.listener = false) : reading srv = false := by
  cases hl : srv.listener with
  | waitEpoch | readSai | sendEacl => simp [hl, answering] at h
  | _ => simp [reading, hl]

/-- What the listener is about to send is what was computed for the epoch asked for. -/
structure EpochInv (srv : State n nb A C) (g : Epochs n) : Prop where
  length : g.tags.length = srv.handlers.length
  phase : Phase srv g
  wait : ∀ k, srv.listener = .waitEpoch k → g.needed = k ∧
    (k ≤ srv.eaclEpoch → g.computed k = some (contents srv.accessList))
  readSai : srv.listener = .readSai → g.computed g.needed = some (contents srv.accessList)
  sendEacl : ∀ sai, srv.listener = .sendEacl sai →
    g.computed g.needed = some (contents srv.accessList) ∧ sai = Eacl.sai srv.accessList

/-- The listener stays where it is, and so does the list. -/
theorem EpochInv.congr {srv srv' : State n nb A C} {g g' : Epochs n} (inv : EpochInv srv g)
    (hlength : g'.tags.length = srv'.handlers.length)
    (hwork : work srv'.handlers g'.tags = work srv.handlers g.tags)
    (hepoch : srv'.epoch = srv.epoch) (heaclEpoch : srv'.eaclEpoch = srv.eaclEpoch)
    (hlist : contents srv'.accessList = contents srv.accessList)
    (hlistener : srv'.listener = srv.listener) (hneeded : g'.needed = g.needed)
    (hcomputed : g'.computed = g.computed) : EpochInv srv' g' where
  length := hlength
  phase := by
    refine inv.phase.congr hwork hepoch heaclEpoch ?_ ?_
    · rw [hlist, hcomputed]
      exact fun _ h => h
    · rw [reading, reading, hlistener, heaclEpoch]
      exact id
  wait := by
    rw [hlistener, hneeded, hcomputed, heaclEpoch, hlist]
    exact inv.wait
  readSai := by
    rw [hlistener, hneeded, hcomputed, hlist]
    exact inv.readSai
  sendEacl := by
    rw [hlistener, hneeded, hcomputed, hlist, show Eacl.sai srv'.accessList = _ from
      congrArg Prod.fst hlist]
    exact inv.sendEacl

/-- The listener is not about to answer. -/
theorem EpochInv.of_not_answering {srv : State n nb A C} {g : Epochs n}
    (hlength : g.tags.length = srv.handlers.length) (hphase : Phase srv g)
    (hlistener : answering srv.listener = false) : EpochInv srv g where
  length := hlength
  phase := hphase
  wait := fun k hl => by simp [hl, answering] at hlistener
  readSai := fun hl => by simp [hl, answering] at hlistener
  sendEacl := fun sai hl => by simp [hl, answering] at hlistener

/-- A step of the listener or of a transfer that does not begin an answer. -/
theorem EpochInv.leave {srv srv' : State n nb A C} {g g' : Epochs n} (inv : EpochInv srv g)
    (hhandlers : srv'.handlers = srv.handlers) (htags : g'.tags = g.tags)
    (hepoch : srv'.epoch = srv.epoch) (heaclEpoch : srv'.eaclEpoch = srv.eaclEpoch)
    (hlist : ∀ k, g.computed k = some (contents srv.accessList) →
      g'.computed k = some (contents srv'.accessList))
    (hlistener : answering srv'.listener = false) : EpochInv srv' g' := by
  apply EpochInv.of_not_answering
  · rw [hhandlers, htags]
    exact inv.length
  · exact inv.phase.congr (by rw [hhandlers, htags]) hepoch heaclEpoch hlist
      fun _ => reading_of_not_answering hlistener
  · exact hlistener

/-- Clearing an entry clears it in all that has been computed. -/
theorem computed_cleared [LawfulEacl A] {g : Epochs n} {accessList : A} {e : Fin n} {k : Nat}
    (h : g.computed k = some (contents accessList)) :
    (g.cleared e).computed k = some (contents (Eacl.resetAllEntry accessList e)) := by
  rw [contents, LawfulEacl.sai_resetAllEntry, LawfulEacl.load_resetAllEntry]
  simp [Epochs.cleared, h, contents]

theorem Calculate.calculating {a a' : A} {h h' : Handler n} (hnext : Calculate a h a' h') :
    calculating h = true := by
  cases hnext <;> rfl

/-- The history when a handler goes on in `eacl_calculate_sai`, and when it has come to
the end of it. -/
theorem record_calculate {srv : State n nb A C} (srv' : State n nb A C) (g : Epochs n)
    {i : Nat} {h h' : Handler n} {a a' : A} (hi : srv.handlers[i]? = some h)
    (hnext : Calculate a h a' h') :
    (calculating h' = true ∧ ahead h' = true) ∧ g.record (.handler i) srv srv' = g ∨
      h' = .setEaclEpoch ∧ g.record (.handler i) srv srv' =
        { g with
          computed := Function.update g.computed (g.tags.getD i 0)
            (some (contents srv'.accessList)) } := by
  cases hnext with
  | loadSai e => exact Or.inl ⟨⟨rfl, rfl⟩, by simp [Epochs.record, hi]⟩
  | done j hj => exact Or.inr ⟨rfl, by simp [Epochs.record, hi, Nat.not_lt.mpr hj]⟩
  | _ => exact Or.inl ⟨⟨rfl, rfl⟩, by simp [Epochs.record, hi]⟩

/-- A handler makes a step of `eacl_calculate_sai`. -/
theorem EpochInv.calculate {srv : State n nb A C} {g : Epochs n} (inv : EpochInv srv g)
    {i : Nat} {h h' : Handler n} {accessList : A} (hi : srv.handlers[i]? = some h)
    (hnext : Calculate srv.accessList h accessList h') (hreading : reading srv = false)
    {srv' : State n nb A C}
    (hsrv : srv' =
      { srv with
        accessList := accessList
        handlers := srv.handlers.set i h' }) :
    EpochInv srv' (g.record (.handler i) srv srv') := by
  have hcomputing : computing h = true := by cases hnext <;> rfl
  obtain ⟨h₀, hwork, hepoch⟩ : ∃ h₀, work srv.handlers g.tags = [(h₀, srv.epoch)] ∧
      srv.epoch = srv.eaclEpoch + 1 := by
    cases inv.phase with
    | idle hwork hepoch hlist => exact absurd hwork (work_ne_nil inv.length hi hcomputing)
    | called hwork hepoch hlist => exact ⟨_, hwork, hepoch⟩
    | calculating h₀ hin hahead hwork hepoch => exact ⟨_, hwork, hepoch⟩
    | setting hwork hepoch hlist => exact ⟨_, hwork, hepoch⟩
  obtain ⟨_, htag, hset⟩ := work_single inv.length hi hcomputing hwork h'
  have hlength : g.tags.length = (srv.handlers.set i h').length := by
    rw [List.length_set]
    exact inv.length
  have hcases := record_calculate srv' g hi hnext
  have hneeded : (g.record (.handler i) srv srv').needed = g.needed := by
    rcases hcases with ⟨_, hrecord⟩ | ⟨_, hrecord⟩ <;> rw [hrecord]
  have hlistener : srv'.listener = srv.listener := by rw [hsrv]
  constructor
  · rcases hcases with ⟨_, hrecord⟩ | ⟨_, hrecord⟩ <;> rw [hrecord, hsrv] <;> exact hlength
  · rcases hcases with ⟨⟨hin, hahead⟩, hrecord⟩ | ⟨rfl, hrecord⟩
    · rw [hrecord, hsrv]
      refine Phase.calculating h' hin hahead ?_ hepoch hreading
      have hcomputing' : computing h' = true := by
        cases h' <;> first | exact hahead | cases hahead
      rw [hset, if_pos hcomputing']
    · rw [hrecord]
      subst hsrv
      apply Phase.setting
      · exact hset
      · exact hepoch
      · rw [htag]
        exact Function.update_self _ _ _
  · intro k hl
    rw [hlistener] at hl
    refine ⟨hneeded.trans (inv.wait k hl).1, fun hle => ?_⟩
    have hnot : ¬ k ≤ srv.eaclEpoch := by simpa [reading, hl] using hreading
    rw [hsrv] at hle
    exact absurd hle hnot
  · intro hl
    simp [reading, hlistener ▸ hl] at hreading
  · intro sai hl
    simp [reading, hlistener ▸ hl] at hreading

/-- A handler sets `eacl_epoch`. -/
theorem EpochInv.setEaclEpoch {srv : State n nb A C} {g : Epochs n} (inv : EpochInv srv g)
    {i : Nat} (hi : srv.handlers[i]? = some .setEaclEpoch) :
    EpochInv
      { srv with
        eaclEpoch := srv.epoch
        handlers := srv.handlers.set i .resetAccess } g := by
  cases inv.phase with
  | idle hwork hepoch hlist => exact absurd hwork (work_ne_nil inv.length hi rfl)
  | called hwork hepoch hlist =>
      obtain ⟨hother, _⟩ := work_single inv.length hi rfl hwork .resetAccess
      cases hother
  | calculating h hin hahead hwork hepoch hreading =>
      obtain ⟨hother, _⟩ := work_single inv.length hi rfl hwork .resetAccess
      rw [← hother] at hin
      cases hin
  | setting hwork hepoch hlist =>
      obtain ⟨_, _, hset⟩ := work_single inv.length hi rfl hwork .resetAccess
      constructor
      · show g.tags.length = (srv.handlers.set i .resetAccess).length
        rw [List.length_set]
        exact inv.length
      · exact Phase.idle hset rfl hlist
      · intro k hl
        obtain ⟨hneeded, hcomputed⟩ := inv.wait k hl
        refine ⟨hneeded, fun hle => ?_⟩
        have hle' : k ≤ srv.epoch := hle
        by_cases hbefore : k ≤ srv.eaclEpoch
        · exact hcomputed hbefore
        · rw [show k = srv.epoch by omega]
          exact hlist
      · exact inv.readSai
      · exact inv.sendEacl

/-- A handler that has set `eacl_epoch` goes on. -/
theorem EpochInv.goOn {srv : State n nb A C} {g : Epochs n} (inv : EpochInv srv g)
    {i : Nat} {h : Handler n} (hi : srv.handlers[i]? = some h) (hdone : computing h = false)
    (h' : Handler n) (hdone' : computing h' = false) (accessList : A)
    (hlist : contents accessList = contents srv.accessList) :
    EpochInv
      { srv with
        accessList := accessList
        handlers := srv.handlers.set i h' } g := by
  apply inv.congr
  · show g.tags.length = (srv.handlers.set i h').length
    rw [List.length_set]
    exact inv.length
  · exact work_set inv.length hi hdone hdone'
  · rfl
  · rfl
  · exact hlist
  · rfl
  · rfl
  · rfl

/-- A handler has returned. -/
theorem EpochInv.done {srv : State n nb A C} {g : Epochs n} (inv : EpochInv srv g)
    {i : Nat} {h : Handler n} (hi : srv.handlers[i]? = some h) (hdone : computing h = false)
    (push : List (ToManager n nb)) :
    EpochInv
      { srv with
        handlers := srv.handlers.eraseIdx i
        push := push } { g with tags := g.tags.eraseIdx i } := by
  apply inv.congr
  · show (g.tags.eraseIdx i).length = (srv.handlers.eraseIdx i).length
    rw [List.length_eraseIdx, List.length_eraseIdx, inv.length]
  · exact work_eraseIdx inv.length hi hdone
  · rfl
  · rfl
  · rfl
  · rfl
  · rfl
  · rfl

/-- `SIGUSR2` is delivered. -/
theorem EpochInv.usr2 {srv : State n nb A C} {g : Epochs n} (inv : EpochInv srv g)
    (hidle : ∀ h ∈ srv.handlers, computing h = false) :
    EpochInv (usr2Handler srv) { g with tags := g.tags ++ [srv.epoch + 1] } := by
  have hnil : work srv.handlers g.tags = [] := work_eq_nil hidle
  constructor
  · simp [usr2Handler, inv.length]
  · cases inv.phase with
    | idle hwork hepoch hlist =>
        apply Phase.called
        · show work (srv.handlers ++ [.calculateSai]) (g.tags ++ [srv.epoch + 1]) = _
          rw [work_append inv.length.symm, hwork]
          rfl
        · show srv.epoch + 1 = srv.eaclEpoch + 1
          rw [hepoch]
        · exact hlist
    | called hwork hepoch hlist => simp [hnil] at hwork
    | calculating h hin hahead hwork hepoch => simp [hnil] at hwork
    | setting hwork hepoch hlist => simp [hnil] at hwork
  · exact inv.wait
  · exact inv.readSai
  · exact inv.sendEacl

/-- The listener has found that its list is not of a later epoch. -/
theorem EpochInv.newEpoch {srv : State n nb A C} {g : Epochs n} (inv : EpochInv srv g)
    {k : Nat} (hepoch : srv.eaclEpoch ≤ k)
    (hahead : k = srv.eaclEpoch → ∀ h ∈ srv.handlers, ahead h = false) :
    EpochInv { srv with listener := .waitEpoch k } { g with needed := k } := by
  constructor
  · exact inv.length
  · cases inv.phase with
    | idle hwork hepoch hlist => exact Phase.idle hwork hepoch hlist
    | called hwork hepoch hlist => exact Phase.called hwork hepoch hlist
    | setting hwork hepoch hlist => exact Phase.setting hwork hepoch hlist
    | calculating h hin hbegun hwork hepoch' =>
        refine Phase.calculating h hin hbegun hwork hepoch' ?_
        have hlater : k ≠ srv.eaclEpoch := fun heq => by
          rw [hahead heq h (mem_of_work hwork)] at hbegun
          cases hbegun
        simp only [reading, decide_eq_false_iff_not]
        omega
  · intro j hj
    cases hj
    refine ⟨rfl, fun hle => ?_⟩
    have heq : k = srv.eaclEpoch := Nat.le_antisymm hle hepoch
    cases inv.phase with
    | idle hwork _ hlist => exact heq ▸ hlist
    | called hwork _ hlist => exact heq ▸ hlist
    | calculating h hin hbegun hwork =>
        rw [hahead heq h (mem_of_work hwork)] at hbegun
        cases hbegun
    | setting hwork _ hlist => cases hahead heq _ (mem_of_work hwork)
  · intro hl
    cases hl
  · intro sai hl
    cases hl

theorem EpochInv.step [LawfulEacl A] {s : Fin nb} {srv srv' : State n nb A C} {g : Epochs n}
    {l : Label} (inv : EpochInv srv g) (hgood : Undisturbed srv l) (h : Step s srv l srv') :
    EpochInv srv' (g.record l srv srv') := by
  cases h with
  | usr2 => exact inv.usr2 hgood
  | calculateSai i h h' accessList hi hnext =>
      refine inv.calculate hi hnext (hgood ?_) rfl
      rw [hi]
      exact hnext.calculating
  | setEaclEpoch i hi =>
      have hnext := inv.setEaclEpoch hi
      simpa only [Epochs.record, hi] using hnext
  | resetAccess i hi =>
      have hlist : contents (Eacl.resetAccess srv.accessList) = contents srv.accessList := by
        rw [contents, LawfulEacl.sai_resetAccess, LawfulEacl.load_resetAccess]
        rfl
      have hnext := inv.goOn hi rfl .threshold rfl _ hlist
      simpa only [Epochs.record, hi] using hnext
  | threshold i hi =>
      have hnext := inv.goOn hi rfl
        (.askRebalancing (thresholdMax srv.meanLoad) (thresholdMin srv.meanLoad)) rfl
        srv.accessList rfl
      simpa only [Epochs.record, hi] using hnext
  | noRebalancing i max min hi hload =>
      have hnext := inv.done hi rfl srv.push
      simpa only [Epochs.record, hi] using hnext
  | askRebalancing i max min hi hload =>
      have hnext := inv.done hi rfl (srv.push ++ [.help srv.epoch])
      simpa only [Epochs.record, hi] using hnext
  | newEpoch k hl hepoch =>
      have hnext := inv.newEpoch hepoch fun heq => hgood (by rw [hl, comparing, heq])
      simpa only [Epochs.record, hl] using hnext
  | epochReached k hl hepoch =>
      obtain ⟨hneeded, hcomputed⟩ := inv.wait k hl
      simp only [Epochs.record, hl]
      constructor
      · exact inv.length
      · refine inv.phase.congr rfl rfl rfl (fun _ h => h) fun hreading => ?_
        simp [reading, hl, hepoch] at hreading
      · intro j hj
        cases hj
      · intro _
        rw [hneeded]
        exact hcomputed hepoch
      · intro sai hsai
        cases hsai
  | readSai hl =>
      have hcomputed := inv.readSai hl
      simp only [Epochs.record, hl]
      constructor
      · exact inv.length
      · refine inv.phase.congr rfl rfl rfl (fun _ h => h) fun hreading => ?_
        simp [reading, hl] at hreading
      · intro j hj
        cases hj
      · intro hj
        cases hj
      · intro sai hsai
        cases hsai
        exact ⟨hcomputed, rfl⟩
  | incrAccess client request hmain =>
      have hlist : contents (Eacl.incrAccess srv.accessList request.index) =
          contents srv.accessList := by
        rw [contents, LawfulEacl.sai_incrAccess, LawfulEacl.load_incrAccess]
        rfl
      exact inv.congr inv.length rfl rfl rfl hlist rfl rfl rfl
  | storage client request store done getValue hmain hstore =>
      exact inv.congr inv.length rfl rfl rfl rfl rfl rfl rfl
  | oldEpoch k hl hepoch =>
      simp only [Epochs.record, hl]
      exact inv.leave rfl rfl rfl rfl (fun _ h => h) rfl
  | crash l hnull =>
      have hrecord : g.record l srv srv.crash = g := by
        cases hnull <;> simp only [Epochs.record, *]
      rw [hrecord]
      exact inv.congr inv.length rfl rfl rfl rfl rfl rfl rfl
  | sentEacl entry toSend receiver hl =>
      simp only [Epochs.record, hl]
      exact inv.leave rfl rfl rfl rfl (fun _ h => computed_cleared h) rfl
  | receivedEacl sender source entry left hl =>
      simp only [Epochs.record, hl]
      exact inv.leave rfl rfl rfl rfl (fun _ h => computed_cleared h) rfl
  | _ =>
      simp only [Epochs.record, *]
      exact inv.leave rfl rfl rfl rfl (fun _ h => h) rfl

/-- The listener and the handlers see nothing of what others do. -/
theorem EpochInv.external {srv srv' : State n nb A C} {g : Epochs n} (inv : EpochInv srv g)
    (h : External srv srv') : EpochInv srv' g := by
  cases h with
  | take sender source packet left hl =>
      exact inv.leave rfl rfl rfl rfl (fun _ h => h) rfl
  | reply sender source entry left hl =>
      exact inv.leave rfl rfl rfl rfl (fun _ h => h) rfl
  | _ => exact inv.congr inv.length rfl rfl rfl rfl rfl rfl rfl

end MeDiE.Server

namespace MeDiE.System

open MeDiE.Server
open MeDiE.Storage
open MeDiE.Verified.Transition

variable {n nb : Nat} {A C : Type} [NeZero nb] [Eacl A n] [DecidableEq C]

/-! ## Runs -/

/-- The history of server `s`. -/
def recordEpochs (s : Fin nb) (l : Label nb C) (x y : State n nb A C) (g : Epochs n) :
    Epochs n :=
  match l with
  | .server w l' => if w = s then g.record l' (x.srv s) (y.srv s) else g
  | _ => g

/-- The condition on the steps of server `s`. -/
def UndisturbedAt (s : Fin nb) (l : Label nb C) (x : State n nb A C × Epochs n) : Prop :=
  match l with
  | .server w l' => w = s → Undisturbed (x.1.srv s) l'
  | _ => True

omit [NeZero nb] [Eacl A n] [DecidableEq C] in
instance (s : Fin nb) (l : Label nb C) (x : State n nb A C × Epochs n) :
    Decidable (UndisturbedAt s l x) :=
  decidableOnServer (fun w l' => w = s → Undisturbed (x.1.srv s) l') l

omit [NeZero nb] in
theorem epochInv_step [LawfulEacl A] {hash : Key → Fin n} {x y : State n nb A C}
    {l : Label nb C} {s : Fin nb} {g : Epochs n} (inv : EpochInv (x.srv s) g)
    (hgood : UndisturbedAt s l (x, g)) (h : Step hash x l y) :
    EpochInv (y.srv s) (recordEpochs s l x y g) := by
  have hsub : ∀ packet : FromManager n nb,
      EpochInv { x.srv s with sub := (x.srv s).sub ++ [packet] } g := fun packet =>
    inv.congr inv.length rfl rfl rfl rfl rfl rfl rfl
  have h' := h
  cases h with
  | server w l' srv h =>
      by_cases hw : w = s
      · subst hw
        simp only [recordEpochs, setSrv_srv, Function.update_self]
        exact inv.step (hgood rfl) h
      · have hw' : s ≠ w := fun heq => hw heq.symm
        simp only [recordEpochs, if_neg hw, setSrv_srv, Function.update_of_ne hw']
        exact inv
  | sendAsk epoch hp => exact hsub _
  | sendMlt hp => exact hsub _
  | _ =>
      apply h'.servers_of_ne (P := fun w srv => w = s → EpochInv srv g) _ _ _ _ s rfl
      · simp
      · rintro w rfl
        exact inv
      · intro w l' srv hl
        cases hl
      · exact fun w srv srv' hext hs hw => (hs hw).external hext

/-- In a run in which nothing is computed between the comparison of the epochs and the
`EACL` at server `s`, its `EACL`s carry what it has computed for the epoch asked for. -/
theorem answer_of_epoch [LawfulEacl A] (hash : Key → Fin n) (s : Fin nb)
    (x : State n nb A C × Epochs n)
    (hx : Reach (init n nb A C, Epochs.init n A)
      (StepsIf (withHistory (step hash) (recordEpochs s)) (UndisturbedAt s)) x)
    (sai : Fin n → Nat) (hl : (x.1.srv s).listener = .sendEacl sai) :
    x.2.computed x.2.needed = some (sai, Eacl.readLoadLvl (x.1.srv s).accessList) := by
  have inv : EpochInv (x.1.srv s) x.2 := by
    apply Reach.invariant (I := fun x => EpochInv (x.1.srv s) x.2) _ _ hx
    · exact EpochInv.of_not_answering rfl (Phase.idle rfl rfl rfl) rfl
    · rintro x y _ inv ⟨l, hgood, hl⟩
      obtain ⟨hy, hrecord⟩ := withHistory_eq_some.mp hl
      rw [hrecord]
      exact epochInv_step inv hgood (step_cases hy)
  obtain ⟨hcomputed, hsai⟩ := inv.sendEacl sai hl
  rw [hcomputed, hsai]
  rfl

/-! ## Two answers -/

/-- The indices that the listener is about to send. -/
def readIndices (srv : Server.State n nb A C) : Option (Fin n → Nat) :=
  match srv.listener with
  | .sendEacl sai => some sai
  | _ => none

omit [NeZero nb] [Eacl A n] [DecidableEq C] in
theorem readIndices_eq_some {srv : Server.State n nb A C} {sai : Fin n → Nat} :
    readIndices srv = some sai ↔ srv.listener = .sendEacl sai := by
  unfold readIndices
  split <;> simp_all

/-- The start of the sample runs, with a history of server 0. -/
def epochsInit : SampleState × Epochs 4 :=
  (init 4 2 (EaclIndedh.EaclData 4) Unit, Epochs.init 4 (EaclIndedh.EaclData 4))

/-- The first answer of server 0 in the sample run. -/
theorem answer_of_epoch_first_round :
    ∃ (x : SampleState × Epochs 4) (sai : Fin 4 → Nat),
      (x.1.srv 0).listener = .sendEacl sai ∧ x.2.needed = 1 ∧
        x.2.computed 1 = some (sai, Eacl.readLoadLvl (x.1.srv 0).accessList) := by
  have hrun : ((run (guarded (withHistory (step sampleHash) (recordEpochs 0))
      (UndisturbedAt 0)) (askRun ++ threadRun 0 .listener 4) epochsInit).any
        fun x => decide ((readIndices (x.1.srv 0)).isSome = true ∧ x.2.needed = 1)) =
      true := by
    decide +kernel
  obtain ⟨x, hx, hp⟩ := (Option.any_eq_true _ _).mp hrun
  obtain ⟨hread, hneeded⟩ := of_decide_eq_true hp
  obtain ⟨sai, hsai⟩ := Option.isSome_iff_exists.mp hread
  have hl := readIndices_eq_some.mp hsai
  have hcomputed := answer_of_epoch sampleHash 0 x (reach_of_guarded_run _ hx) sai hl
  rw [hneeded] at hcomputed
  exact ⟨x, sai, hl, hneeded, hcomputed⟩

/-- The second `SIGUSR2` comes to server 0 after its listener has seen that the list is of
epoch 1, and the list of epoch 2 is sent for `ASK(1)`. -/
theorem exists_answer_of_later_epoch :
    ∃ (x : SampleState × Epochs 4) (sai : Fin 4 → Nat),
      Reach epochsInit (Steps (withHistory (step sampleHash) (recordEpochs 0))) x ∧
        (x.1.srv 0).listener = .sendEacl sai ∧ x.2.needed = 1 ∧
        x.2.computed 1 ≠ some (sai, Eacl.readLoadLvl (x.1.srv 0).accessList) ∧
        x.2.computed 2 = some (sai, Eacl.readLoadLvl (x.1.srv 0).accessList) := by
  have hrun : ((run (withHistory (step sampleHash) (recordEpochs 0))
      (askRun ++ threadRun 0 .listener 3 ++ [.server 0 .usr2] ++ calculateRun 0 0 ++
        threadRun 0 .listener 1) epochsInit).any
        fun x => (readIndices (x.1.srv 0)).any fun sai => decide (x.2.needed = 1 ∧
          x.2.computed 1 ≠ some (sai, Eacl.readLoadLvl (x.1.srv 0).accessList) ∧
          x.2.computed 2 = some (sai, Eacl.readLoadLvl (x.1.srv 0).accessList))) = true := by
    decide +kernel
  obtain ⟨x, hx, hp⟩ := (Option.any_eq_true _ _).mp hrun
  obtain ⟨sai, hsai, hp⟩ := (Option.any_eq_true _ _).mp hp
  obtain ⟨hneeded, hone, htwo⟩ := of_decide_eq_true hp
  exact ⟨x, sai, reach_of_run _ Reach.start hx, readIndices_eq_some.mp hsai, hneeded, hone, htwo⟩

end MeDiE.System
