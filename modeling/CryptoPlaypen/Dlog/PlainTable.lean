import CryptoPlaypen.Dlog.BabyStepGiantStep

/-! The table of the first program, which inverts each power of `g` by itself. The second program's
has the same entries in the same order, so both searches return the same logarithms. -/
namespace CryptoPlaypen.Dlog
open Buffer Go

namespace Go1

/-- One round. The receiver `gx1` goes through all the steps, and is kept for the next round. -/
def assignEntry (p g h : Int) (s : Int × Lookup) (x1 : Int) : Option (Int × Lookup) := do
  let (gx1, lookup) := s
  let gx1 := BigInt.exp gx1 g x1 p
  let gx1 ← BigInt.modInverse gx1 gx1 p
  let gx1 := h * gx1
  let gx1 := gx1 % p
  pure (gx1,(bigIntToHex gx1,BigInt.int64 x1) :: lookup)

def buildLeftLookup (p g h B : Int) : Option Lookup := do
  let (_, lookup) ← (counted 0 B).foldlM (assignEntry p g h) (0,[])
  pure lookup

end Go1

/-- What `main` prints after `x`, with the operators of 64 bits. -/
def printedX (x0 x1 B : Int) : Int := BigInt.int64 (BigInt.int64 (x0 * BigInt.int64 B) + x1)

section Tables
variable {p g h d : ℕ}

/-- The inverse of a power is the power of an inverse. -/
theorem inverse_pow (hinverse : g * d ≡ 1 [MOD p]) {n e : ℕ} (he : g ^ n * e ≡ 1 [MOD p]) :
    e ≡ d ^ n [MOD p] := by
  have hpow := hinverse.pow n
  rw [mul_pow, one_pow] at hpow
  calc
    e = 1 * e := (one_mul e).symm
    _ ≡ g ^ n * d ^ n * e [MOD p] := hpow.symm.mul_right e
    _ = d ^ n * (g ^ n * e) := by ring
    _ ≡ d ^ n * 1 [MOD p] := he.mul_left _
    _ = d ^ n := mul_one _

/-- One round of the first program, with an inverse of `g`: what `gx1` was before does not matter. -/
theorem assignEntry_eq (hp : p.Prime) (hg : 0 < g) (hlt : g < p) (hinverse : g * d ≡ 1 [MOD p])
    (s : Int × Lookup) (n : ℕ) : Go1.assignEntry p g h s n =
      some (((d ^ n * h % p : ℕ) : Int),(bigIntToHex (d ^ n * h % p : ℕ),BigInt.int64 n) :: s.2) := by
  have hcoprime : Nat.gcd (g ^ n % p) p = 1 := by
    rw [← Nat.gcd_rec, Nat.gcd_comm]
    exact (Nat.coprime_of_lt_prime (by omega) hlt hp).symm.pow_left n
  obtain ⟨e,he,hproduct⟩ := BigInt.modInverse_spec (g := (g ^ n % p : ℕ)) (n := p)
    (Int.natCast_pos.mpr hp.pos) hcoprime (g ^ n % p : ℕ)
  have hpow : g ^ n * e ≡ 1 [MOD p] :=
    ((Nat.mod_modEq (g ^ n) p).symm.mul_right e).trans (by exact_mod_cast hproduct)
  have hentry : (h : Int) * e % p = ((d ^ n * h % p : ℕ) : Int) := by
    have hcomm := (inverse_pow hinverse hpow).mul_left h
    rw [Nat.mul_comm h (d ^ n)] at hcomm
    exact_mod_cast hcomm
  simp only [Go1.assignEntry, BigInt.exp_natCast hp.ne_zero, he, Option.bind_eq_bind, Option.bind_some,
    hentry]
  rfl

/-- The loops stay in step, from any table. -/
theorem foldlM_assignEntry (hp : p.Prime) (hg : 0 < g) (hlt : g < p) (hinverse : g * d ≡ 1 [MOD p])
    (ns : List ℕ) (gx1 : Int) (lookup : Lookup) :
    ((ns.map fun (n : ℕ) => (n : Int)).foldlM (Go1.assignEntry p g h) (gx1,lookup)).map (fun s => s.2) =
      some ((ns.map fun (n : ℕ) => (n : Int)).foldl (fun lookup x1 =>
        (bigIntToHex (BigInt.exp 1 d x1 p * h % p),BigInt.int64 x1) :: lookup) lookup) := by
  induction ns generalizing gx1 lookup with
  | nil => rfl
  | cons n ns ih =>
    rw [List.map_cons, List.foldlM_cons, List.foldl_cons, assignEntry_eq hp hg hlt hinverse,
      entry_eq hp]
    exact ih _ _

private theorem counted_eq (s B : ℕ) : counted s B = ((List.range (B + 1 - s)).map (s + 1 + ·)).map
    fun (n : ℕ) => (n : Int) := by
  rw [counted, List.map_map]
  have hcount : ((B : Int) + 1 - s).toNat = B + 1 - s := by omega
  rw [hcount]
  apply List.map_congr_left
  intro i _
  simp

/-- Both programs build one table. -/
theorem plain_eq_optimised (hp : p.Prime) (hg : 0 < g) (hlt : g < p) (h B : ℕ) :
    ∃ lookup, Go1.buildLeftLookup p g h B = some lookup ∧ buildLeftLookup p g h B = some lookup := by
  have hcoprime : Nat.gcd g p = 1 := (Nat.coprime_of_lt_prime (by omega) hlt hp).symm
  obtain ⟨d,hd,hinverse⟩ := BigInt.modInverse_spec (g := g) (n := p) (Int.natCast_pos.mpr hp.pos)
    hcoprime 0
  refine ⟨_,?_,by rw [buildLeftLookup, hd]; rfl⟩
  have hrun := foldlM_assignEntry (h := h) hp hg hlt (by exact_mod_cast hinverse)
    ((List.range (B + 1 - 0)).map (0 + 1 + ·)) 0 []
  rw [← counted_eq, Nat.cast_zero, Option.map_eq_bind] at hrun
  exact hrun

end Tables

/-- Every key has the same value in the maps of both programs. -/
theorem tables_agree {p g : ℕ} (hp : p.Prime) (hg : 0 < g) (hlt : g < p) (h B : ℕ) :
    ∃ plain optimised, Go1.buildLeftLookup p g h B = some plain ∧
      buildLeftLookup p g h B = some optimised ∧ ∀ key, plain.lookup key = optimised.lookup key := by
  obtain ⟨lookup,hplain,hoptimised⟩ := plain_eq_optimised hp hg hlt h B
  exact ⟨lookup,lookup,hplain,hoptimised,fun _ => rfl⟩

/-- With two entries of each key but one: the powers of 2 modulo 7 repeat. -/
theorem tables_agree_seven : ∃ plain optimised,
    Go1.buildLeftLookup (7 : ℕ) (2 : ℕ) (3 : ℕ) (4 : ℕ) = some plain ∧
      buildLeftLookup (7 : ℕ) (2 : ℕ) (3 : ℕ) (4 : ℕ) = some optimised ∧
        ∀ key, plain.lookup key = optimised.lookup key :=
  tables_agree (by norm_num) (by norm_num) (by norm_num) 3 4

/-- What the search of either program returns is a logarithm of `h`, and it is printed as it is. -/
theorem search_sound {p g h B : ℕ} {lookup : Lookup} {x0 x1 : Int} (hp : p.Prime) (hg : 0 < g)
    (hlt : g < p) (hh : h < p) (hsmall : (B + 1) * (B + 1) + B + 1 < 2 ^ 63)
    (hbuild : Go1.buildLeftLookup p g h B = some lookup ∨ buildLeftLookup p g h B = some lookup)
    (hsearch : searchLeft lookup p g B = some (x0,x1)) :
    ∃ x : ℕ, x = x0 * B + x1 ∧ g ^ x % p = h ∧ printedX x0 x1 B = x := by
  obtain ⟨lookup',hplain,hoptimised⟩ := plain_eq_optimised hp hg hlt h B
  obtain ⟨lookup'',hbuild',_,hpair⟩ := searchLeft_spec (B := B) hp hg hlt hh
  rw [hoptimised, Option.some.injEq] at hbuild'
  subst hbuild'
  have hsame : lookup' = lookup := by
    rcases hbuild with hbuild | hbuild
    · exact Option.some.inj (hplain.symm.trans hbuild)
    · exact Option.some.inj (hoptimised.symm.trans hbuild)
  subst hsame
  obtain ⟨n0,n1,⟨_,hn0,_,hn1,hlog⟩,hvalue⟩ := hpair _ hsearch
  have hlarge : n0 * B ≤ (B + 1) * (B + 1) := Nat.mul_le_mul hn0 (Nat.le_succ B)
  rw [BigInt.int64_natCast (by omega), BigInt.int64_natCast (by omega)] at hvalue
  obtain ⟨rfl,rfl⟩ := Prod.mk.inj hvalue
  refine ⟨n0 * B + n1,by push_cast; rfl,hlog,?_⟩
  rw [printedX, BigInt.int64_natCast (show B < 2 ^ 63 by omega), ← Nat.cast_mul,
    BigInt.int64_natCast (by omega), ← Nat.cast_add, BigInt.int64_natCast (by omega)]

/-- The first program finds 105 for 32, as the second does. -/
theorem search_sound_101 : ∃ lookup,
    Go1.buildLeftLookup (101 : ℕ) (2 : ℕ) (32 : ℕ) (10 : ℕ) = some lookup ∧
    searchLeft lookup (101 : ℕ) (2 : ℕ) (10 : ℕ) = some (10,5) ∧
    ∃ x : ℕ, x = (10 : Int) * (10 : ℕ) + 5 ∧ 2 ^ x % 101 = 32 ∧ printedX 10 5 (10 : ℕ) = x := by
  obtain ⟨lookup,hbuild⟩ : ∃ lookup,
      Go1.buildLeftLookup (101 : ℕ) (2 : ℕ) (32 : ℕ) (10 : ℕ) = some lookup :=
    Option.isSome_iff_exists.mp (by decide +kernel)
  have hsearch : (Go1.buildLeftLookup (101 : ℕ) (2 : ℕ) (32 : ℕ) (10 : ℕ)).bind
      (fun lookup => searchLeft lookup (101 : ℕ) (2 : ℕ) (10 : ℕ)) = some (10,5) := by decide +kernel
  rw [hbuild, Option.bind_some] at hsearch
  exact ⟨lookup,hbuild,hsearch,search_sound (by norm_num) (by norm_num) (by norm_num) (by norm_num)
    (by norm_num) (.inl hbuild) hsearch⟩

end CryptoPlaypen.Dlog
