import Mathlib.Data.List.TakeWhile
import MeDiE.Verified.Mix

/-!
# `MurmurHash3_x86_32` (`murmur3.c`)

The hash that gives a key its entry, or under static hashing its server.  Every step of it
is a bijection of the words, so of two keys that differ in one block alone none has the
hash of the other, and the words that one block can hold are spread over the entries as
evenly as they can be.
-/

namespace MeDiE.Hash

open MeDiE.Verified

abbrev Byte := BitVec 8

/-- `rotl32`. -/
def rotl32 (x : BitVec 32) (r : Nat) : BitVec 32 := x <<< r ||| x >>> (32 - r)

/-- `fmix32`. -/
def fmix32 (h : BitVec 32) : BitVec 32 :=
  let h := h ^^^ h >>> 16
  let h := h * 0x85ebca6b#32
  let h := h ^^^ h >>> 13
  let h := h * 0xc2b2ae35#32
  h ^^^ h >>> 16

def c1 : BitVec 32 := 0xcc9e2d51#32

def c2 : BitVec 32 := 0x1b873593#32

/-- What is done to `k1` before it comes into the hash. -/
def mixKey (k1 : BitVec 32) : BitVec 32 := rotl32 (k1 * c1) 15 * c2

/-- `getblock`; the first byte of a block is the lowest one. -/
def getblock (b0 b1 b2 b3 : Byte) : BitVec 32 := b3 ++ b2 ++ b1 ++ b0

/-- One turn of the loop over the blocks. -/
def mixBlock (h1 k1 : BitVec 32) : BitVec 32 :=
  rotl32 (h1 ^^^ mixKey k1) 13 * 5#32 + 0xe6546b64#32

/-- The array `blocks` that the loop runs over. -/
def blocks : List Byte → List (BitVec 32)
  | b0 :: b1 :: b2 :: b3 :: data => getblock b0 b1 b2 b3 :: blocks data
  | _ => []

/-- `k1` after the cases of the `switch`, which fall through. -/
def tailKey : List Byte → BitVec 32
  | [t0] => t0.setWidth 32
  | [t0, t1] => t1.setWidth 32 <<< 8 ^^^ t0.setWidth 32
  | [t0, t1, t2] => t2.setWidth 32 <<< 16 ^^^ t1.setWidth 32 <<< 8 ^^^ t0.setWidth 32
  | _ => 0

def mixTail (h1 : BitVec 32) (tail : List Byte) : BitVec 32 :=
  if tail = [] then h1 else h1 ^^^ mixKey (tailKey tail)

/-- `MurmurHash3_x86_32` with the `len` bytes of `key`, of which any may be 0. -/
def murmurHash3X86_32 (key : List Byte) (seed : BitVec 32) : BitVec 32 :=
  let nblocks := key.length / 4
  let h1 := (blocks key).foldl mixBlock seed
  let tail := key.drop (nblocks * 4)
  fmix32 (mixTail h1 tail ^^^ BitVec.ofNat 32 key.length)

/-- The bytes that `strlen` counts. -/
def untilNul (key : List Byte) : List Byte := key.takeWhile (· ≠ 0)

/-- `distribution_assign_srv_by_key`: the entry of the key that lies in `key`, or with `n`
servers the server. -/
def assignByKey (n : Nat) (key : List Byte) : Nat :=
  (murmurHash3X86_32 (untilNul key) 1#32).toNat % n

-- `Hello` with the seed 1: a block and a byte
example : murmurHash3X86_32 [0x48, 0x65, 0x6c, 0x6c, 0x6f] 1#32 = 0x4a7bd098#32 := by decide

/-! ## Bijections -/

theorem bijective_rotl32 {r : Nat} (hr : r ≤ 32) : Function.Bijective (rotl32 · r) :=
  Mix.bijective_rotate hr

theorem bijective_fmix32 : Function.Bijective fmix32 := by
  have h16 : Function.Bijective fun h : BitVec 32 => h ^^^ h >>> 16 :=
    Mix.bijective_xorShift (by decide)
  have h13 : Function.Bijective fun h : BitVec 32 => h ^^^ h >>> 13 :=
    Mix.bijective_xorShift (by decide)
  have hmul : Function.Bijective fun h : BitVec 32 => h * 0x85ebca6b#32 :=
    Mix.bijective_mul (d := 0xa5cb9243#32) (by decide)
  have hmul' : Function.Bijective fun h : BitVec 32 => h * 0xc2b2ae35#32 :=
    Mix.bijective_mul (d := 0x7ed1b41d#32) (by decide)
  exact h16.comp (hmul'.comp (h13.comp (hmul.comp h16)))

theorem bijective_mixKey : Function.Bijective mixKey := by
  have hmul : Function.Bijective fun k : BitVec 32 => k * c1 :=
    Mix.bijective_mul (d := 0xdee13bb1#32) (by decide)
  have hmul' : Function.Bijective fun k : BitVec 32 => k * c2 :=
    Mix.bijective_mul (d := 0x56ed309b#32) (by decide)
  exact hmul'.comp ((bijective_rotl32 (r := 15) (by decide)).comp hmul)

theorem bijective_loop :
    Function.Bijective fun h : BitVec 32 => rotl32 h 13 * 5#32 + 0xe6546b64#32 :=
  (Mix.bijective_add 0xe6546b64#32).comp
    ((Mix.bijective_mul (d := 0xcccccccd#32) (by decide)).comp (bijective_rotl32 (by decide)))

/-- With the block the hash so far can be told from the hash after it. -/
theorem bijective_mixBlock_left (k1 : BitVec 32) :
    Function.Bijective fun h1 => mixBlock h1 k1 :=
  bijective_loop.comp (Mix.bijective_xor (mixKey k1))

/-- And the block from the hashes before and after it. -/
theorem bijective_mixBlock_right (h1 : BitVec 32) : Function.Bijective (mixBlock h1) :=
  bijective_loop.comp (Mix.bijective_xor_comp bijective_mixKey h1)

theorem bijective_mixTail (tail : List Byte) :
    Function.Bijective fun h1 => mixTail h1 tail := by
  by_cases htail : tail = []
  · have hid : (fun h1 => mixTail h1 tail) = id := by
      funext h1
      simp [mixTail, htail]
    rw [hid]
    exact Function.bijective_id
  · simpa [mixTail, htail] using Mix.bijective_xor (mixKey (tailKey tail))

/-- The blocks that come later lose nothing. -/
theorem bijective_foldl (ks : List (BitVec 32)) :
    Function.Bijective fun h1 => ks.foldl mixBlock h1 := by
  induction ks with
  | nil => exact Function.bijective_id
  | cons k ks ih => exact ih.comp (bijective_mixBlock_left k)

/-! ## Keys that differ in one block -/

theorem blocks_append {pre : List Byte} (hpre : pre.length % 4 = 0) (data : List Byte) :
    blocks (pre ++ data) = blocks pre ++ blocks data := by
  induction pre using blocks.induct with
  | case1 b0 b1 b2 b3 pre ih =>
      simp only [List.length_cons] at hpre
      simp [blocks, ih (by omega)]
  | case2 tail hshort =>
      have hnil : tail = [] := by
        match tail, hshort, hpre with
        | [], _, _ => rfl
        | [_], _, h => simp at h
        | [_, _], _, h => simp at h
        | [_, _, _], _, h => simp at h
        | b0 :: b1 :: b2 :: b3 :: data, hshort, _ => exact (hshort b0 b1 b2 b3 data rfl).elim
      subst hnil
      simp [blocks]

/-- The bytes of a word as they lie in memory. -/
def bytesOf (k : BitVec 32) : List Byte :=
  [k.extractLsb' 0 8, k.extractLsb' 8 8, k.extractLsb' 16 8, k.extractLsb' 24 8]

theorem getblock_bytesOf (k : BitVec 32) :
    getblock (k.extractLsb' 0 8) (k.extractLsb' 8 8) (k.extractLsb' 16 8)
      (k.extractLsb' 24 8) = k := by
  apply BitVec.eq_of_getLsbD_eq
  intro i hi
  simp only [getblock, BitVec.getLsbD_append, BitVec.getLsbD_extractLsb']
  rcases (by omega : i < 8 ∨ (8 ≤ i ∧ i < 16) ∨ (16 ≤ i ∧ i < 24) ∨ 24 ≤ i) with
    h | ⟨h, h'⟩ | ⟨h, h'⟩ | h
  · simp [h]
  · simp [show ¬ i < 8 by omega, show i - 8 < 8 by omega, show 8 + (i - 8) = i by omega]
  · simp [show ¬ i < 8 by omega, show ¬ i - 8 < 8 by omega, show i - 8 - 8 < 8 by omega,
      show 16 + (i - 8 - 8) = i by omega]
  · simp [show ¬ i < 8 by omega, show ¬ i - 8 < 8 by omega, show ¬ i - 8 - 8 < 8 by omega,
      show i - 8 - 8 - 8 < 8 by omega, show 24 + (i - 8 - 8 - 8) = i by omega]

/-- With one block free every hash is reached, and by one word alone. -/
theorem bijective_murmurHash3 {pre : List Byte} (hpre : pre.length % 4 = 0)
    (suf : List Byte) (seed : BitVec 32) :
    Function.Bijective fun k => murmurHash3X86_32 (pre ++ bytesOf k ++ suf) seed := by
  have hhash : (fun k => murmurHash3X86_32 (pre ++ bytesOf k ++ suf) seed) = fun k =>
      fmix32 (mixTail ((blocks suf).foldl mixBlock (mixBlock ((blocks pre).foldl mixBlock seed) k))
        (suf.drop (suf.length / 4 * 4)) ^^^ BitVec.ofNat 32 (pre.length + 4 + suf.length)) := by
    funext k
    have hlength : (pre ++ bytesOf k ++ suf).length = pre.length + 4 + suf.length := by
      simp [bytesOf]
      omega
    have hblocks : blocks (pre ++ bytesOf k ++ suf) = blocks pre ++ k :: blocks suf := by
      rw [List.append_assoc, blocks_append hpre]
      simp only [bytesOf, List.cons_append, List.nil_append, blocks, getblock_bytesOf]
    have htail : (pre ++ bytesOf k ++ suf).drop ((pre.length + 4 + suf.length) / 4 * 4) =
        suf.drop (suf.length / 4 * 4) := by
      have hat : (pre.length + 4 + suf.length) / 4 * 4 =
          (pre ++ bytesOf k).length + suf.length / 4 * 4 := by
        simp only [List.length_append, bytesOf, List.length_cons, List.length_nil]
        omega
      rw [hat, List.drop_length_add_append]
    simp only [murmurHash3X86_32, hlength, hblocks, htail, List.foldl_append, List.foldl_cons]
  rw [hhash]
  exact bijective_fmix32.comp ((Mix.bijective_xor _).comp ((bijective_mixTail _).comp
    ((bijective_foldl _).comp (bijective_mixBlock_right _))))

/-- Three bytes in a word lie apart. -/
theorem getLsbD_tailKey (t0 t1 t2 : Byte) {i : Nat} (hi : i < 8) :
    (tailKey [t0, t1, t2]).getLsbD i = t0.getLsbD i ∧
      (tailKey [t0, t1, t2]).getLsbD (i + 8) = t1.getLsbD i ∧
      (tailKey [t0, t1, t2]).getLsbD (i + 16) = t2.getLsbD i := by
  simp only [tailKey, BitVec.getLsbD_xor, BitVec.getLsbD_shiftLeft, BitVec.getLsbD_setWidth]
  refine ⟨?_, ?_, ?_⟩
  · simp [show i < 32 by omega, show i < 16 by omega, hi]
  · simp [show i + 8 < 32 by omega, show i < 32 by omega, show i + 8 < 16 by omega]
  · simp [show i + 16 < 32 by omega, show i + 8 < 32 by omega, show i < 32 by omega]

/-- What is behind the blocks is in the word with every byte. -/
theorem tailKey_injective {x y : List Byte} (hlength : x.length = y.length)
    (hx : x.length < 4) (h : tailKey x = tailKey y) : x = y := by
  have hpad : ∀ t0 t1, tailKey [t0] = tailKey [t0, 0, 0] ∧
      tailKey [t0, t1] = tailKey [t0, t1, 0] := by
    intro t0 t1
    simp [tailKey]
  have hthree : ∀ t0 t1 t2 u0 u1 u2, tailKey [t0, t1, t2] = tailKey [u0, u1, u2] →
      t0 = u0 ∧ t1 = u1 ∧ t2 = u2 := by
    intro t0 t1 t2 u0 u1 u2 h
    have hbits := fun i (hi : i < 8) => getLsbD_tailKey t0 t1 t2 hi
    simp only [h] at hbits
    refine ⟨?_, ?_, ?_⟩ <;> apply BitVec.eq_of_getLsbD_eq <;> intro i hi
    · exact (hbits i hi).1.symm.trans (getLsbD_tailKey u0 u1 u2 hi).1
    · exact (hbits i hi).2.1.symm.trans (getLsbD_tailKey u0 u1 u2 hi).2.1
    · exact (hbits i hi).2.2.symm.trans (getLsbD_tailKey u0 u1 u2 hi).2.2
  match x, y, hlength, hx with
  | [], [], _, _ => rfl
  | [t0], [u0], _, _ =>
      rw [(hpad t0 0).1, (hpad u0 0).1] at h
      rw [(hthree _ _ _ _ _ _ h).1]
  | [t0, t1], [u0, u1], _, _ =>
      rw [(hpad t0 t1).2, (hpad u0 u1).2] at h
      obtain ⟨rfl, rfl, _⟩ := hthree _ _ _ _ _ _ h
      rfl
  | [t0, t1, t2], [u0, u1, u2], _, _ =>
      obtain ⟨rfl, rfl, rfl⟩ := hthree _ _ _ _ _ _ h
      rfl
  | _ :: _ :: _ :: _ :: _, _, _, h =>
      simp only [List.length_cons] at h
      omega

theorem bytesOf_getblock (b0 b1 b2 b3 : Byte) :
    bytesOf (getblock b0 b1 b2 b3) = [b0, b1, b2, b3] := by
  have hbits : ∀ i, i < 8 → (getblock b0 b1 b2 b3).getLsbD i = b0.getLsbD i ∧
      (getblock b0 b1 b2 b3).getLsbD (8 + i) = b1.getLsbD i ∧
      (getblock b0 b1 b2 b3).getLsbD (16 + i) = b2.getLsbD i ∧
      (getblock b0 b1 b2 b3).getLsbD (24 + i) = b3.getLsbD i := by
    intro i hi
    simp only [getblock, BitVec.getLsbD_append]
    refine ⟨?_, ?_, ?_, ?_⟩
    · simp [hi]
    · simp [hi]
    · simp [hi, show 16 + i - 8 - 8 = i by omega, show ¬ 16 + i < 8 by omega,
        show ¬ 16 + i - 8 < 8 by omega]
    · simp [hi, show 24 + i - 8 - 8 - 8 = i by omega, show ¬ 24 + i < 8 by omega,
        show ¬ 24 + i - 8 < 8 by omega, show ¬ 24 + i - 8 - 8 < 8 by omega]
  simp only [bytesOf, List.cons.injEq, and_true]
  refine ⟨?_, ?_, ?_, ?_⟩ <;> apply BitVec.eq_of_getLsbD_eq <;> intro i hi
  · simpa [hi] using (hbits i hi).1
  · simpa [hi] using (hbits i hi).2.1
  · simpa [hi] using (hbits i hi).2.2.1
  · simpa [hi] using (hbits i hi).2.2.2

/-- The hash of whole blocks with less than a block behind them. -/
theorem murmurHash3_tail {pre tail : List Byte} (hpre : pre.length % 4 = 0)
    (htail : tail.length < 4) (seed : BitVec 32) :
    murmurHash3X86_32 (pre ++ tail) seed =
      fmix32 (mixTail ((blocks pre).foldl mixBlock seed) tail ^^^
        BitVec.ofNat 32 (pre.length + tail.length)) := by
  have hblocks : blocks (pre ++ tail) = blocks pre := by
    have hnil : blocks tail = [] := by
      apply blocks.eq_2
      rintro b0 b1 b2 b3 data rfl
      simp only [List.length_cons] at htail
      omega
    rw [blocks_append hpre, hnil, List.append_nil]
  have hat : (pre.length + tail.length) / 4 * 4 = pre.length := by omega
  simp only [murmurHash3X86_32, hblocks, List.length_append, hat, List.drop_left]

/-- **Keys that differ in one block do not collide.**  The block may be the one at the end
that is shorter than the others. -/
theorem murmurHash3_ne (pre x y suf : List Byte) (seed : BitVec 32)
    (hpre : pre.length % 4 = 0) (hlength : x.length = y.length)
    (hblock : x.length = 4 ∨ x.length < 4 ∧ suf = []) (hne : x ≠ y) :
    murmurHash3X86_32 (pre ++ x ++ suf) seed ≠ murmurHash3X86_32 (pre ++ y ++ suf) seed := by
  have hbytes : ∀ z : List Byte, z.length = 4 → ∃ k, z = bytesOf k := fun z hz =>
    match z, hz with
    | [b0, b1, b2, b3], _ => ⟨_, (bytesOf_getblock b0 b1 b2 b3).symm⟩
  intro h
  apply hne
  rcases hblock with hx | ⟨hx, rfl⟩
  · obtain ⟨k, rfl⟩ := hbytes x hx
    obtain ⟨k', rfl⟩ := hbytes y (hlength.symm.trans hx)
    exact congrArg bytesOf ((bijective_murmurHash3 hpre suf seed).injective h)
  · rw [List.append_nil, List.append_nil, murmurHash3_tail hpre hx,
      murmurHash3_tail hpre (hlength ▸ hx), hlength] at h
    have hmix := (Mix.bijective_xor _).injective (bijective_fmix32.injective h)
    by_cases hnil : x = []
    · subst hnil
      exact (List.length_eq_zero_iff.mp hlength.symm).symm
    · have hnil' : y ≠ [] := by
        rintro rfl
        exact hnil (List.length_eq_zero_iff.mp hlength)
      rw [mixTail, mixTail, if_neg hnil, if_neg hnil'] at hmix
      have hkey := (BitVec.xor_right_inj _).mp hmix
      exact tailKey_injective hlength hx (bijective_mixKey.injective hkey)

/-- The keys `ax` and `ay` have different hashes, and so have `fileaxyz` and `filebxyz`. -/
theorem murmurHash3_ne_two_bytes :
    murmurHash3X86_32 [0x61, 0x78] 1#32 ≠ murmurHash3X86_32 [0x61, 0x79] 1#32 ∧
      murmurHash3X86_32 [0x66, 0x69, 0x6c, 0x65, 0x61, 0x78, 0x79, 0x7a] 1#32 ≠
        murmurHash3X86_32 [0x66, 0x69, 0x6c, 0x65, 0x62, 0x78, 0x79, 0x7a] 1#32 :=
  ⟨murmurHash3_ne [] [0x61, 0x78] [0x61, 0x79] [] 1#32 rfl rfl (Or.inr ⟨by decide, rfl⟩)
      (by decide),
    murmurHash3_ne [0x66, 0x69, 0x6c, 0x65] [0x61, 0x78, 0x79, 0x7a] [0x62, 0x78, 0x79, 0x7a] []
      1#32 rfl rfl (Or.inl rfl) (by decide)⟩

/-! ## Keys with one free block -/

theorem card_murmurHash3_mod {pre : List Byte} (hpre : pre.length % 4 = 0) (suf : List Byte)
    (seed : BitVec 32) {n : Nat} (i : Fin n) :
    Nat.card {k : BitVec 32 //
        (murmurHash3X86_32 (pre ++ bytesOf k ++ suf) seed).toNat % n = i} =
      2 ^ 32 / n + if (i : Nat) < 2 ^ 32 % n then 1 else 0 := by
  rw [← Mix.card_toNat_mod i]
  apply Nat.card_congr
  exact (Equiv.ofBijective _ (bijective_murmurHash3 hpre suf seed)).subtypeEquiv
    fun k => Iff.rfl

/-- `strlen` comes to the end of a key without a zero byte. -/
theorem assignByKey_of_noNul {n : Nat} {key : List Byte} (hkey : ∀ b ∈ key, b ≠ 0) :
    assignByKey n key = (murmurHash3X86_32 key 1#32).toNat % n := by
  have huntil : untilNul key = key :=
    List.takeWhile_eq_self_iff.mpr fun b hb => decide_eq_true (hkey b hb)
  rw [assignByKey, huntil]

/-- **One free block spreads the keys evenly.**  Let `pre` be a whole number of blocks.  Of
the buffers that are `pre`, any four bytes and `suf`, as many hash to one remainder of `n`
as to any other, but for one, whatever the seed.  Of the keys among them, which have no
zero byte, no entry gets more than its share of all of these. -/
theorem card_assignByKey (pre suf : List Byte) (seed : BitVec 32) (hpre : pre.length % 4 = 0)
    (n : Nat) (i : Fin n) :
    Nat.card {k : BitVec 32 //
        (murmurHash3X86_32 (pre ++ bytesOf k ++ suf) seed).toNat % n = i} =
      (2 ^ 32 / n + if (i : Nat) < 2 ^ 32 % n then 1 else 0) ∧
    Nat.card {k : BitVec 32 // (∀ b ∈ pre ++ bytesOf k ++ suf, b ≠ 0) ∧
        assignByKey n (pre ++ bytesOf k ++ suf) = i} ≤
      2 ^ 32 / n + if (i : Nat) < 2 ^ 32 % n then 1 else 0 := by
  refine ⟨card_murmurHash3_mod hpre suf seed i, ?_⟩
  rw [← card_murmurHash3_mod hpre suf 1#32 i]
  have hhash : ∀ k, (∀ b ∈ pre ++ bytesOf k ++ suf, b ≠ 0) ∧
      assignByKey n (pre ++ bytesOf k ++ suf) = i →
        (murmurHash3X86_32 (pre ++ bytesOf k ++ suf) 1#32).toNat % n = i := by
    rintro k ⟨hkey, hentry⟩
    rwa [assignByKey_of_noNul hkey] at hentry
  exact Nat.card_le_card_of_injective (Subtype.map id hhash)
    (Subtype.map_injective hhash Function.injective_id)

/-- The 42,949,673 words that go to each of the first 96 entries of 100, and one fewer for
the last four; and the four-byte keys with the prefix `file` are no more at entry 96. -/
theorem card_assignByKey_hundred :
    Nat.card {k : BitVec 32 //
        (murmurHash3X86_32 ([] ++ bytesOf k ++ []) 1#32).toNat % 100 = 95} = 42949673 ∧
      Nat.card {k : BitVec 32 //
        (∀ b ∈ [0x66, 0x69, 0x6c, 0x65] ++ bytesOf k ++ [], b ≠ 0) ∧
          assignByKey 100 ([0x66, 0x69, 0x6c, 0x65] ++ bytesOf k ++ []) = 96} ≤ 42949672 :=
  ⟨(card_assignByKey [] [] 1#32 rfl 100 95).1,
    (card_assignByKey [0x66, 0x69, 0x6c, 0x65] [] 1#32 rfl 100 96).2⟩

end MeDiE.Hash
