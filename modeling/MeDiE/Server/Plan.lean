import MeDiE.Server.Listener

/-!
# The lists made for an MLT

Taking over an MLT row by row amounts to comparing two tables: the rows before
the index are those of the new table, and the lists hold the entries before the
index whose version differs and whose old, or whose new, owner is the server.
-/

namespace MeDiE.Server

open MeDiE.Table

variable {n nb : Nat}

/-- The entries of `l` that server `s` loses, with their new owners. -/
def sends (l : List (Fin n)) (s : Fin nb) (old new : MltPacket n nb) :
    List (Fin nb × Fin n) :=
  (l.filter (fun e => old.nVer e ≠ new.nVer e ∧ old.idSrv e = s)).map
    (fun e => (new.idSrv e, e))

/-- The entries of `l` that server `s` gains, with their old owners. -/
def receives (l : List (Fin n)) (s : Fin nb) (old new : MltPacket n nb) :
    List (Fin nb × Fin n) :=
  (l.filter (fun e => old.nVer e ≠ new.nVer e ∧ old.idSrv e ≠ s ∧ new.idSrv e = s)).map
    (fun e => (old.idSrv e, e))

/-- The lists of server `s` once the rows before `i` are taken over. -/
def planUpTo (i : Nat) (s : Fin nb) (old new : MltPacket n nb) : Plan n nb where
  toSend := sends ((List.finRange n).take i) s old new
  toReceive := receives ((List.finRange n).take i) s old new

/-- The lists of server `s` for a whole MLT. -/
def planOf (s : Fin nb) (old new : MltPacket n nb) : Plan n nb where
  toSend := sends (List.finRange n) s old new
  toReceive := receives (List.finRange n) s old new

/-- The table agrees with `new` before row `i` and with `old` from there on. -/
def TakenOver (i : Nat) (old new : MltPacket n nb) (table : Mlt n (Fin nb)) : Prop :=
  ∀ e : Fin n,
    (e < i → table.idSrv e = new.idSrv e ∧ table.nVer e = new.nVer e) ∧
      (i ≤ e → table.idSrv e = old.idSrv e ∧ table.nVer e = old.nVer e)

theorem planUpTo_of_le {i : Nat} (hi : n ≤ i) (s : Fin nb) (old new : MltPacket n nb) :
    planUpTo i s old new = planOf s old new := by
  rw [planUpTo, planOf, List.take_of_length_le]
  simpa using hi

theorem mem_sends {l : List (Fin n)} {s d : Fin nb} {old new : MltPacket n nb}
    {e : Fin n} :
    (d, e) ∈ sends l s old new ↔
      e ∈ l ∧ old.nVer e ≠ new.nVer e ∧ old.idSrv e = s ∧ d = new.idSrv e := by
  simp only [sends, List.mem_map, List.mem_filter, decide_eq_true_eq, Prod.mk.injEq]
  constructor
  · rintro ⟨i, ⟨hi, hver, hs⟩, hd, rfl⟩
    exact ⟨hi, hver, hs, hd.symm⟩
  · rintro ⟨hi, hver, hs, hd⟩
    exact ⟨e, ⟨hi, hver, hs⟩, hd.symm, rfl⟩

theorem mem_receives {l : List (Fin n)} {s d : Fin nb} {old new : MltPacket n nb}
    {e : Fin n} :
    (d, e) ∈ receives l s old new ↔
      e ∈ l ∧ old.nVer e ≠ new.nVer e ∧ old.idSrv e ≠ s ∧ new.idSrv e = s ∧
        d = old.idSrv e := by
  simp only [receives, List.mem_map, List.mem_filter, decide_eq_true_eq, Prod.mk.injEq]
  constructor
  · rintro ⟨i, ⟨hi, hver, hs, hs'⟩, hd, rfl⟩
    exact ⟨hi, hver, hs, hs', hd.symm⟩
  · rintro ⟨hi, hver, hs, hs', hd⟩
    exact ⟨e, ⟨hi, hver, hs, hs'⟩, hd.symm, rfl⟩

/-- No entry is listed twice. -/
theorem nodup_sends {l : List (Fin n)} (hl : l.Nodup) (s : Fin nb)
    (old new : MltPacket n nb) : ((sends l s old new).map Prod.snd).Nodup := by
  have hsnd : (Prod.snd ∘ fun e => (new.idSrv e, e)) = id := rfl
  rw [sends, List.map_map, hsnd, List.map_id]
  exact hl.filter _

theorem nodup_receives {l : List (Fin n)} (hl : l.Nodup) (s : Fin nb)
    (old new : MltPacket n nb) : ((receives l s old new).map Prod.snd).Nodup := by
  have hsnd : (Prod.snd ∘ fun e => (old.idSrv e, e)) = id := rfl
  rw [receives, List.map_map, hsnd, List.map_id]
  exact hl.filter _

/-! ## One row -/

private theorem take_succ_finRange (i : Fin n) :
    (List.finRange n).take (i + 1) = (List.finRange n).take i ++ [i] := by
  have hi : (i : Nat) < (List.finRange n).length := by simp
  rw [List.take_add_one, List.getElem?_eq_getElem hi]
  simp

/-- The row is overwritten if the versions differ; no other row is touched. -/
theorem updateRow_table (s : Fin nb) (new : MltPacket n nb) (i : Fin n)
    (table : Mlt n (Fin nb)) (plan : Plan n nb) (e : Fin n) :
    (updateRow s new i table plan).1.idSrv e =
        (if e = i ∧ table.nVer i ≠ new.nVer i then new.idSrv i else table.idSrv e) ∧
      (updateRow s new i table plan).1.nVer e =
        (if e = i then new.nVer i else table.nVer e) ∧
      (updateRow s new i table plan).1.state e =
        (if e = i ∧ table.nVer i ≠ new.nVer i
          then decide (table.idSrv i = s ∨ new.idSrv i = s) else table.state e) := by
  unfold updateRow
  by_cases he : e = i
  · subst he
    by_cases hver : table.nVer e = new.nVer e
    · simp [hver]
    · by_cases hold : table.idSrv e = s
      · simp [hver, hold]
      · by_cases hnew : new.idSrv e = s <;> simp [hver, hold, hnew]
  · by_cases hver : table.nVer i = new.nVer i
    · simp [hver, he]
    · by_cases hold : table.idSrv i = s
      · simp [hver, hold, he]
      · by_cases hnew : new.idSrv i = s <;> simp [hver, hold, hnew, he]

/-- One row more is taken over. -/
theorem takenOver_updateRow (s : Fin nb) {old new : MltPacket n nb}
    {table : Mlt n (Fin nb)} {i : Fin n} (plan : Plan n nb)
    (h : TakenOver i old new table)
    (hsame : old.nVer i = new.nVer i → old.idSrv i = new.idSrv i) :
    TakenOver (i + 1) old new (updateRow s new i table plan).1 := by
  intro e
  obtain ⟨hsrv, hver, _⟩ := updateRow_table s new i table plan e
  rw [hsrv, hver]
  by_cases he : e = i
  · subst he
    have hrow := (h e).2 (Nat.le_refl _)
    constructor
    · intro _
      by_cases hv : table.nVer e = new.nVer e
      · simp only [hv, ne_eq, not_true_eq_false, and_false, if_false, if_true, and_true]
        rw [hrow.1]
        exact hsame (by rw [← hrow.2, hv])
      · simp [hv]
    · intro hle
      omega
  · have hne : (e : Nat) ≠ i := fun heq => he (Fin.ext heq)
    simp only [he, false_and, if_false]
    constructor
    · intro hlt
      exact (h e).1 (by omega)
    · intro hle
      exact (h e).2 (by omega)

/-- The lists grow by the row. -/
theorem planUpTo_updateRow (s : Fin nb) {old new : MltPacket n nb}
    {table : Mlt n (Fin nb)} {i : Fin n} (h : TakenOver i old new table) :
    (updateRow s new i table (planUpTo i s old new)).2 = planUpTo (i + 1) s old new := by
  obtain ⟨hsrv, hver⟩ := (h i).2 (Nat.le_refl _)
  simp only [updateRow, planUpTo, take_succ_finRange, sends, receives, hsrv, hver,
    List.filter_append, List.map_append]
  by_cases hv : old.nVer i = new.nVer i
  · simp [hv]
  · by_cases hold : old.idSrv i = s
    · simp [hv, hold]
    · by_cases hnew : new.idSrv i = s <;> simp [hv, hold, hnew]

/-! ## The plans of all servers -/

private theorem sum_countP_fiber {ι σ : Type} [Fintype σ] [DecidableEq σ] (f : ι → σ)
    (p : ι → Bool) (l : List ι) :
    ∑ s, l.countP (fun e => p e && decide (f e = s)) = l.countP p := by
  induction l with
  | nil => simp
  | cons a l ih =>
      simp only [List.countP_cons, Finset.sum_add_distrib, ih]
      congr 1
      cases hp : p a <;> simp

/-- As many packets are addressed to a server as it waits for. -/
theorem sum_sends (old new : MltPacket n nb) (d : Fin nb)
    (hchanged : ∀ e, old.nVer e ≠ new.nVer e → old.idSrv e ≠ new.idSrv e) :
    ∑ s, ((planOf s old new).toSend.filter (fun p => p.1 = d)).length =
      (planOf d old new).toReceive.length := by
  have hsend : ∀ s, ((planOf s old new).toSend.filter (fun p => p.1 = d)).length =
      (List.finRange n).countP (fun e =>
        decide (old.nVer e ≠ new.nVer e ∧ new.idSrv e = d) && decide (old.idSrv e = s)) := by
    intro s
    rw [planOf, sends, List.filter_map, List.length_map, List.filter_filter,
      ← List.countP_eq_length_filter]
    apply List.countP_congr
    intro e _
    simp only [Function.comp_apply, Bool.and_eq_true, decide_eq_true_eq]
    tauto
  rw [Finset.sum_congr rfl fun s _ => hsend s, sum_countP_fiber, planOf, receives,
    List.length_map, ← List.countP_eq_length_filter]
  apply List.countP_congr
  intro e _
  simp only [decide_eq_true_eq]
  constructor
  · rintro ⟨hver, hnew⟩
    exact ⟨hver, hnew ▸ hchanged e hver, hnew⟩
  · rintro ⟨hver, _, hnew⟩
    exact ⟨hver, hnew⟩

end MeDiE.Server
