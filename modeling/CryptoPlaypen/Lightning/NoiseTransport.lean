import CryptoPlaypen.Lightning.NoiseState

/-! What one transport call does to a state whose nonce counters are known. The
chaining key and one transport key form a pair that each rotation replaces. -/
namespace CryptoPlaypen.Lightning
open Buffer Objects Method

/-- The 12-byte nonce holding the 16-bit counter k. -/
def nonce (k : Nat) : Bytes := zeros 4 ++ leBytes 2 k ++ zeros 6

theorem nonce_zero : nonce 0 = zeros 12 := rfl

private theorem readUInt16LE_nonce {k : Nat} (h : k < 65536) : readUInt16LE (nonce k) 4 = some k :=
  readUIntLE_append 2 (zeros 4) (zeros 6) h

private theorem writeUIntLE_nonce (k : Nat) {j : Nat} (h : j < 65536) :
    writeUIntLE 2 (j : Int) (nonce k) 4 = some (nonce j) := by
  have hw := writeUIntLE_append 2 (zeros 4) (leBytes 2 k ++ zeros 6) h (by simp)
  rw [← List.append_assoc] at hw
  simpa [nonce, List.drop_left'] using hw

theorem nonce_injective {j k : Nat} (hj : j < 65536) (hk : k < 65536) (h : nonce j = nonce k) :
    j = k := by
  have := congrArg (readUInt16LE · 4) h
  simpa [readUInt16LE_nonce hj, readUInt16LE_nonce hk] using this

section Rotation
variable (P : Primitives)

/-- One rotation of a chaining key and a transport key. -/
def rotate (keys : Bytes × Bytes) : Bytes × Bytes :=
  (slice (hkdf P keys.1 keys.2) 0 32, (hkdf P keys.1 keys.2).drop 32)

def sealedLength (key : Bytes) (k : Nat) (m : Bytes) : Bytes :=
  ccpEncrypt P key (nonce k) [] (beBytes 2 m.length)

def sealedBody (key : Bytes) (k : Nat) (m : Bytes) : Bytes :=
  ccpEncrypt P key (nonce (k + 1)) [] m

end Rotation

namespace NoiseState
variable {P : Primitives} {s : NoiseState}

def afterSending (P : Primitives) (s : NoiseState) (C K : Bytes) (k : Nat) : NoiseState :=
  if k + 1 < 1000 then { s with sn := nonce (k + 1) }
  else { s with ck := some (rotate P (C, K)).1, sk := some (rotate P (C, K)).2, sn := nonce 0 }

/-- The state after a use of the receiving key C, K at counter k. -/
def afterReceiving (P : Primitives) (s : NoiseState) (C K : Bytes) (k : Nat) : NoiseState :=
  if k + 1 < 1000 then { s with rn := nonce (k + 1) }
  else { s with ck := some (rotate P (C, K)).1, rk := some (rotate P (C, K)).2, rn := nonce 0 }

theorem run_incrementSendingNonce {k : Nat} (hn : s.sn = nonce k) (hk : k + 1 < 65536) :
    incrementSendingNonce.run s = (.returned (k + 1), { s with sn := nonce (k + 1) }) := by
  simp only [incrementSendingNonce, run_bind, run_self, hn,
    readUInt16LE_nonce (show k < 65536 by omega), run_attempt_some, writeUIntLE_nonce k hk,
    run_assign, run_pure]

private theorem run_incrementRecievingNonce {k : Nat} (hn : s.rn = nonce k) (hk : k + 1 < 65536) :
    incrementRecievingNonce.run s = (.returned (k + 1), { s with rn := nonce (k + 1) }) := by
  simp only [incrementRecievingNonce, run_bind, run_self, hn,
    readUInt16LE_nonce (show k < 65536 by omega), run_attempt_some, writeUIntLE_nonce k hk,
    run_assign, run_pure]

theorem run_finishSendingUse {C K : Bytes} {k : Nat} (hc : s.ck = some C) (hs : s.sk = some K)
    (hn : s.sn = nonce k) (hk : k < 1000) :
    (finishSendingUse P).run s = (.returned (), afterSending P s C K k) := by
  rw [finishSendingUse, run_bind_returned (run_incrementSendingNonce hn (by omega)), afterSending]
  by_cases hlast : k + 1 < 1000
  · rw [if_neg (by omega), if_pos hlast, run_pure]
  · rw [if_pos (by omega), if_neg hlast]
    simp only [rotateSendingKeys, run_bind, run_self, hc, hs, run_attempt_some, run_assign,
      rotate, nonce_zero]

theorem run_finishRecievingUse {C K : Bytes} {k : Nat} (hc : s.ck = some C) (hs : s.rk = some K)
    (hn : s.rn = nonce k) (hk : k < 1000) :
    (finishRecievingUse P).run s = (.returned (), afterReceiving P s C K k) := by
  rw [finishRecievingUse, run_bind_returned (run_incrementRecievingNonce hn (by omega)),
    afterReceiving]
  by_cases hlast : k + 1 < 1000
  · rw [if_neg (by omega), if_pos hlast, run_pure]
  · rw [if_pos (by omega), if_neg hlast]
    simp only [rotateRecievingKeys, run_bind, run_self, hc, hs, run_attempt_some, run_assign,
      rotate, nonce_zero]

theorem writeLength {n : Nat} (h : n ≤ 65535) :
    writeUIntBE 2 (n : Int) (zeros 2) 0 = some (beBytes 2 n) := by
  have hw := writeUIntBE_append 2 [] (zeros 2) (show n < 256 ^ 2 by omega) (by simp)
  simpa [List.drop_eq_nil_of_le] using hw

/-- A message that starts at an even counter never rotates between its prefix
and its body, so both are sealed under one key. -/
theorem run_encryptMessage {C K m : Bytes} {k : Nat} (hc : s.ck = some C) (hs : s.sk = some K)
    (hn : s.sn = nonce k) (hk : k + 1 < 1000) (hm : m.length ≤ 65535) :
    (encryptMessage P m).run s =
      (.returned (sealedLength P K k m ++ sealedBody P K k m), afterSending P s C K (k + 1)) := by
  have hfirst := run_finishSendingUse (P := P) hc hs hn (by omega)
  have hmid : afterSending P s C K k = { s with sn := nonce (k + 1) } := if_pos hk
  rw [hmid] at hfirst
  have hsecond := run_finishSendingUse (P := P) (s := { s with sn := nonce (k + 1) }) hc hs rfl hk
  have hkey : ({ s with sn := nonce (k + 1) } : NoiseState).sk = some K := hs
  have hend : afterSending P { s with sn := nonce (k + 1) } C K (k + 1) =
      afterSending P s C K (k + 1) := by
    unfold afterSending
    split <;> rfl
  rw [hend] at hsecond
  generalize hafter : ({ s with sn := nonce (k + 1) } : NoiseState) = t at hfirst hsecond hkey
  have hcount : t.sn = nonce (k + 1) := by rw [← hafter]
  simp only [encryptMessage, run_bind, writeLength hm, run_attempt_some, run_self, hs, hn, hfirst,
    hkey, hcount, hsecond, run_pure, sealedLength, sealedBody]

/-- An oversized message is refused before any key use. -/
theorem run_encryptMessage_overflow {m : Bytes} (hm : 65535 < m.length) :
    (encryptMessage P m).run s = (.threw, s) := by
  have hw := writeUIntBE_overflow 2 (zeros 2) 0 (show 256 ^ 2 ≤ m.length by omega)
  simp only [encryptMessage, run_bind, hw, run_attempt_none]

private theorem readLength {m : Bytes} (hm : m.length ≤ 65535) :
    readUInt16BE (beBytes 2 m.length) 0 = some m.length := by
  simpa using readUIntBE_append 2 [] [] (n := m.length) (by omega)

theorem run_decryptLength (hP : AeadLaws P) {C K m : Bytes} {k : Nat} (hc : s.ck = some C)
    (hr : s.rk = some K) (hn : s.rn = nonce k) (hk : k < 1000) (hm : m.length ≤ 65535) :
    (decryptLength P (sealedLength P K k m)).run s =
      (.returned m.length, afterReceiving P s C K k) := by
  simp only [decryptLength, run_bind, run_self, hr, hn, run_attempt_some, sealedLength,
    ccpDecrypt_ccpEncrypt hP, run_finishRecievingUse (P := P) hc hr hn hk, readLength hm]

theorem run_decryptMessage (hP : AeadLaws P) {C K m : Bytes} {k : Nat} (hc : s.ck = some C)
    (hr : s.rk = some K) (hn : s.rn = nonce (k + 1)) (hk : k + 1 < 1000) :
    (decryptMessage P (sealedBody P K k m)).run s =
      (.returned (some m), afterReceiving P s C K (k + 1)) := by
  simp only [decryptMessage, run_bind, run_self, hr, hn, run_attempt_some, sealedBody,
    ccpDecrypt_ccpEncrypt hP, run_finishRecievingUse (P := P) hc hr hn hk, run_pure]

end NoiseState
end CryptoPlaypen.Lightning
