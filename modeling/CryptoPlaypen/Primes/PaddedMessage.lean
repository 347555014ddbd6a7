import CryptoPlaypen.Primes.RsaBreak

/-! A message in the encoding PKCS#1 v1.5, recovered with its padding. What is printed starts
with the zero that ends the padding. -/
namespace CryptoPlaypen.Primes
open Buffer Go

def stripPadding : Bytes → Bytes
  | [] => []
  | b :: m => if b = 0x00 then b :: m else stripPadding m

def result (N e c : Int) : Option Bytes := do
  let m ← recoverMessage N e c
  let mb := BigInt.bytes m
  let first ← mb.head?
  if first ≠ 0x02 then none else pure (stripPadding mb)

def paddedBlock (PS M : Bytes) : Bytes := 0x00 :: 0x02 :: PS ++ 0x00 :: M

/-- Near odd primes, an exponent for them, and a message with the padding that fills a block. -/
structure PaddedFor (p q e : ℕ) (PS M : Bytes) : Prop where
  prime : p.Prime ∧ q.Prime
  odd : Odd p ∧ Odd q
  lt : p < q
  near : (q : ℝ) - p < 2 * ((p * q : ℕ) : ℝ) ^ (1 / 4 : ℝ)
  coprime : Nat.gcd e ((p - 1) * (q - 1)) = 1
  padding : PS ≠ [] ∧ 0x00 ∉ PS
  length : (paddedBlock PS M).length = (BigInt.bytes (p * q : ℕ)).length

private theorem stripPadding_append {ps : Bytes} (h : 0x00 ∉ ps) (m : Bytes) :
    stripPadding (ps ++ 0x00 :: m) = 0x00 :: m := by
  induction ps with
  | nil => rfl
  | cons b ps ih =>
    obtain ⟨hb,hps⟩ := not_or.mp (mt List.mem_cons.mpr h)
    rw [List.cons_append, stripPadding, if_neg fun hzero => hb hzero.symm, ih hps]

/-- The zero in front does not count. -/
theorem beValue_paddedBlock (PS M : Bytes) :
    beValue (paddedBlock PS M) = beValue (0x02 :: PS ++ 0x00 :: M) := by
  rw [paddedBlock, List.cons_append, beValue_cons]
  simp

/-- It makes the block less than the modulus. -/
theorem beValue_paddedBlock_lt {N : ℕ} {PS M : Bytes}
    (h : (paddedBlock PS M).length = (BigInt.bytes N).length) : beValue (paddedBlock PS M) < N := by
  rw [beValue_paddedBlock]
  refine (beValue_lt _).trans_le (BigInt.lt_length_bytes_iff.mp ?_)
  rw [← h]
  exact Nat.lt_succ_self _

/-- The scan stops at the right zero, and keeps it. -/
theorem result_padded {p q e : ℕ} {PS M : Bytes} (h : PaddedFor p q e PS M) :
    result (p * q : ℕ) e (beValue (paddedBlock PS M) ^ e % (p * q) : ℕ) = some (0x00 :: M) := by
  have hrecover := recoverMessage_near h.prime.1 h.prime.2 h.odd.1 h.lt
    (pow_four_lt_of_near h.lt.le h.near) h.coprime (beValue_paddedBlock_lt h.length)
  have hbytes : BigInt.bytes (beValue (paddedBlock PS M)) = 0x02 :: PS ++ 0x00 :: M := by
    rw [beValue_paddedBlock]
    exact BigInt.bytes_beValue (by decide) _
  have hscan : stripPadding (0x02 :: PS ++ 0x00 :: M) = 0x00 :: M := by
    apply stripPadding_append
    intro hzero
    exact (List.mem_cons.mp hzero).elim (by decide) h.padding.2
  rw [result, hrecover]
  simp only [Option.bind_eq_bind, Option.bind_some, hbytes, List.cons_append, List.head?_cons]
  rw [if_neg fun hne => hne rfl]
  exact congrArg some hscan

/-- Of no padded message exactly the message is printed. -/
theorem padded_message_never {p q e : ℕ} {PS M : Bytes} (h : PaddedFor p q e PS M) :
    result (p * q : ℕ) e (beValue (paddedBlock PS M) ^ e % (p * q) : ℕ) ≠ some M := by
  rw [result_padded h]
  intro hsame
  exact List.cons_ne_self _ _ (Option.some.inj hsame)

/-- The least primes for a block of five bytes. -/
theorem paddedFor_five {PS M : Bytes} (hPS : PS ≠ [] ∧ 0x00 ∉ PS) (hlength : (paddedBlock PS M).length = 5) :
    PaddedFor 65537 65539 5 PS M where
  prime := ⟨by norm_num,by norm_num⟩
  odd := ⟨⟨32768,rfl⟩,⟨32769,rfl⟩⟩
  lt := by decide
  near := by
    have hroot : (1 : ℝ) < ((65537 * 65539 : ℕ) : ℝ) ^ (1 / 4 : ℝ) :=
      Real.one_lt_rpow (by norm_num) (by norm_num)
    push_cast at hroot ⊢
    linarith
  coprime := by norm_num
  padding := hPS
  length := by
    have hlow : 4 < (BigInt.bytes (65537 * 65539 : ℕ)).length :=
      BigInt.lt_length_bytes_iff.mpr (by norm_num)
    have hhigh : ¬ 5 < (BigInt.bytes (65537 * 65539 : ℕ)).length :=
      fun h => absurd (BigInt.lt_length_bytes_iff.mp h) (by norm_num)
    rw [hlength]
    omega

theorem padded_message_zero :
    result (65537 * 65539 : ℕ) 5 (beValue (paddedBlock [0x01] [0x00]) ^ 5 % (65537 * 65539) : ℕ) ≠
      some [0x00] :=
  padded_message_never (paddedFor_five ⟨List.cons_ne_nil _ _,by decide⟩ rfl)

/-- The letter `M` is printed with a zero in front. -/
theorem padded_message_letter : PaddedFor 65537 65539 5 [0x01] [0x4d] ∧
    result (65537 * 65539 : ℕ) 5 (beValue (paddedBlock [0x01] [0x4d]) ^ 5 % (65537 * 65539) : ℕ) =
      some [0x00,0x4d] ∧
    result (65537 * 65539 : ℕ) 5 (beValue (paddedBlock [0x01] [0x4d]) ^ 5 % (65537 * 65539) : ℕ) ≠
      some [0x4d] := by
  have hpadded : PaddedFor 65537 65539 5 [0x01] [0x4d] :=
    paddedFor_five ⟨List.cons_ne_nil _ _,by decide⟩ rfl
  have hresult := result_padded hpadded
  refine ⟨hpadded,hresult,fun hsame => ?_⟩
  cases hresult.symm.trans hsame

end CryptoPlaypen.Primes
