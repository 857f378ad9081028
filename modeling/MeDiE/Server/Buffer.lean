import MeDiE.Server.MdEntry

/-!
# The buffer of the packing loop

`thread_load_sender` packs names into a buffer of 80 characters.  Before it appends a
name it adds the length of the name, with the comma, to the length of the string, and if
that is not below the capacity it enlarges the buffer by the half, once.  The loop is the
same in `distribution_indedh_s.c`, `distribution_windowed_s.c` and `distribution_dh_s.c`.

One enlargement is enough from 120 characters on, when the half exceeds a comma and a
name.  It is not always enough for the first one.
-/

namespace MeDiE.Server

open MeDiE.Storage

/-- The local variables that the buffer depends on. -/
structure Buffer where
  mdNamesLength : Nat
  mdNamesCapacity : Nat
  deriving DecidableEq

/-- The buffer before the loop. -/
def Buffer.start : Buffer where
  mdNamesLength := 0
  mdNamesCapacity := 80

/-- Room is made for a name.  When three times the capacity is not an `int` any more, C
does not define the new capacity: the loop goes no further here. -/
def Buffer.enlarge (buffer : Buffer) (mdName : Key) : Option Buffer :=
  let length := buffer.mdNamesLength + (1 + mdName.chars.length)
  if length ≥ buffer.mdNamesCapacity then
    if buffer.mdNamesCapacity * 3 < 2 ^ 31 then
      some { mdNamesLength := length, mdNamesCapacity := buffer.mdNamesCapacity * 3 / 2 }
    else none
  else some { buffer with mdNamesLength := length }

/-- The buffer when the last of these names is appended. -/
def bufferFor (names : List Key) : Option Buffer :=
  names.foldlM Buffer.enlarge Buffer.start

/-- The string and its terminator fit whenever a name is appended. -/
def HasRoom (names : List Key) : Prop :=
  ∀ packed, packed <+: names → ∀ buffer, bufferFor packed = some buffer →
    buffer.mdNamesLength < buffer.mdNamesCapacity

/-- The length of the string of these names, a comma before each. -/
def packedLength (names : List Key) : Nat :=
  (names.map fun name => 1 + name.chars.length).sum

/-- No name takes the string from below 80 characters to 120 or more. -/
def NoJump (names : List Key) : Prop :=
  ∀ packed name, packed ++ [name] <+: names → packedLength packed < 80 →
    packedLength (packed ++ [name]) < 120

theorem packedLength_concat (names : List Key) (name : Key) :
    packedLength (names ++ [name]) = packedLength names + (1 + name.chars.length) := by
  simp [packedLength]

theorem bufferFor_concat (names : List Key) (name : Key) :
    bufferFor (names ++ [name]) = (bufferFor names).bind fun b => b.enlarge name := by
  rw [bufferFor, List.foldlM_append]
  cases h : names.foldlM Buffer.enlarge Buffer.start with
  | none => simp [bufferFor, h]
  | some buffer => simp [bufferFor, h]

theorem Buffer.enlarge_eq_some {buffer buffer' : Buffer} {name : Key}
    (h : buffer.enlarge name = some buffer') :
    buffer'.mdNamesLength = buffer.mdNamesLength + (1 + name.chars.length) ∧
      buffer'.mdNamesCapacity =
        if buffer'.mdNamesLength ≥ buffer.mdNamesCapacity
        then buffer.mdNamesCapacity * 3 / 2 else buffer.mdNamesCapacity := by
  simp only [Buffer.enlarge] at h
  by_cases hfull : buffer.mdNamesLength + (1 + name.chars.length) ≥ buffer.mdNamesCapacity
  · rw [if_pos hfull] at h
    split at h
    · cases h
      exact ⟨rfl, (if_pos hfull).symm⟩
    · cases h
  · rw [if_neg hfull] at h
    cases h
    exact ⟨rfl, (if_neg hfull).symm⟩

/-- The length of the buffer is that of the string. -/
theorem mdNamesLength_bufferFor {names : List Key} {buffer : Buffer}
    (h : bufferFor names = some buffer) : buffer.mdNamesLength = packedLength names := by
  induction names using List.reverseRecOn generalizing buffer with
  | nil =>
      cases h
      rfl
  | append_singleton names name ih =>
      rw [bufferFor_concat, Option.bind_eq_some_iff] at h
      obtain ⟨before, hbefore, hname⟩ := h
      rw [packedLength_concat, ← ih hbefore]
      exact (Buffer.enlarge_eq_some hname).1

/-- It is that of the packet. -/
theorem mdNamesLength_packing {n : Nat} (names : List Key) (packet : Packing n) :
    (names.foldl Packing.append packet).mdNamesLength =
      packet.mdNamesLength + packedLength names := by
  induction names generalizing packet with
  | nil => rfl
  | cons name names ih =>
      rw [List.foldl_cons, ih]
      simp only [Packing.append, packedLength, List.map_cons, List.sum_cons]
      omega

/-- Up to 79 characters the buffer is the first one. -/
theorem bufferFor_of_lt {names : List Key} (h : packedLength names < 80) :
    bufferFor names = some { mdNamesLength := packedLength names, mdNamesCapacity := 80 } := by
  induction names using List.reverseRecOn with
  | nil => rfl
  | append_singleton names name ih =>
      rw [packedLength_concat] at h
      rw [bufferFor_concat, ih (by omega), packedLength_concat]
      show Buffer.enlarge _ name = _
      rw [Buffer.enlarge, if_neg (by simp only; omega)]

/-- With room for the string, the buffer is the first one or has grown by at least 40. -/
def Buffer.Roomy (buffer : Buffer) : Prop :=
  buffer.mdNamesLength < buffer.mdNamesCapacity ∧
    (buffer.mdNamesCapacity = 80 ∨ 120 ≤ buffer.mdNamesCapacity)

/-- A name of up to 41 characters keeps the room, unless it takes the string from below 80
characters to 120 or more. -/
theorem Buffer.Roomy.enlarge {buffer buffer' : Buffer} {name : Key} (h : buffer.Roomy)
    (hname : name.chars.length ≤ 41)
    (hjump : buffer.mdNamesLength < 80 → buffer.mdNamesLength + (1 + name.chars.length) < 120)
    (henlarge : buffer.enlarge name = some buffer') : buffer'.Roomy := by
  obtain ⟨hroom, hcapacity⟩ := h
  obtain ⟨hlength, hgrown⟩ := Buffer.enlarge_eq_some henlarge
  unfold Buffer.Roomy
  split at hgrown <;> omega

theorem roomy_bufferFor {names : List Key} (hnames : ∀ name ∈ names, name.chars.length ≤ 41)
    (hjump : NoJump names) {packed : List Key} (hpacked : packed <+: names) {buffer : Buffer}
    (hbuffer : bufferFor packed = some buffer) : buffer.Roomy := by
  induction packed using List.reverseRecOn generalizing buffer with
  | nil =>
      cases hbuffer
      exact ⟨by decide, Or.inl rfl⟩
  | append_singleton packed name ih =>
      rw [bufferFor_concat, Option.bind_eq_some_iff] at hbuffer
      obtain ⟨before, hbefore, hname⟩ := hbuffer
      have hroomy := ih ((List.prefix_append packed [name]).trans hpacked) hbefore
      have hlen := mdNamesLength_bufferFor hbefore
      have hmem : name ∈ names := hpacked.subset (by simp)
      apply hroomy.enlarge (hnames name hmem) _ hname
      rw [hlen, ← packedLength_concat]
      exact hjump packed name hpacked

/-- Of names of up to 41 characters, the string and its terminator fit whenever a name is
appended, if and only if no name takes the string from below 80 characters to 120 or
more. -/
theorem hasRoom_iff (names : List Key) (hnames : ∀ name ∈ names, name.chars.length ≤ 41) :
    HasRoom names ↔ NoJump names := by
  constructor
  · intro hroom packed name hpacked hlt
    by_contra hjump
    rw [packedLength_concat] at hjump
    have hbuffer : bufferFor (packed ++ [name]) =
        some { mdNamesLength := packedLength packed + (1 + name.chars.length)
               mdNamesCapacity := 120 } := by
      rw [bufferFor_concat, bufferFor_of_lt hlt]
      show Buffer.enlarge _ name = _
      rw [Buffer.enlarge, if_pos (by simp only; omega), if_pos (by simp only; omega)]
      norm_num
    have hfits := hroom (packed ++ [name]) hpacked _ hbuffer
    simp only at hfits
    omega
  · intro hjump packed hpacked buffer hbuffer
    exact (roomy_bufferFor hnames hjump hpacked hbuffer).1

/-- A name of `k + 1` characters. -/
def nameOf (k : Nat) : Key where
  chars := List.replicate (k + 1) 'a'
  chars_ne := by simp
  noComma := by simp [List.mem_replicate]

/-- A single name fits. -/
theorem hasRoom_iff_single : HasRoom [nameOf 40] ↔ NoJump [nameOf 40] :=
  hasRoom_iff [nameOf 40] (by decide)

/-- Names of 41, 36 and 41 characters: 122 characters are written to 120. -/
theorem exists_no_room :
    ¬ ∀ names : List Key, (∀ name ∈ names, name.chars.length ≤ 41) → HasRoom names := by
  intro h
  have hroom := h [nameOf 40, nameOf 35, nameOf 40] (by decide) _ (List.prefix_refl _)
    { mdNamesLength := 121, mdNamesCapacity := 120 } (by decide)
  revert hroom
  decide

end MeDiE.Server
