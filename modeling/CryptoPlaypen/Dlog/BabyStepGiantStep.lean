import CryptoPlaypen.Go.BigInt
import Mathlib.Data.Nat.ModEq
import Mathlib.Data.Nat.Prime.Basic
import Mathlib.Tactic.NormNum.Prime

/-! The search for a discrete logarithm. Both loops count before they compute and the second
one starts at 2, so x1 runs from 1 and x0 from 3, and both to one more than `B`. -/
namespace CryptoPlaypen.Dlog
open Buffer Go

def bigIntToHex (x : Int) : List Char := hex (BigInt.bytes x)

/-- The values in the body of `for x.Cmp(B) <= 0`, which starts by adding one. -/
def counted (x B : Int) : List Int := (List.range (B + 1 - x).toNat).map fun (i : Nat) => x + 1 + i

/-- A map from texts; what is assigned to a key hides what was assigned to it before. -/
abbrev Lookup := List (List Char × Int)

/-- The exponents are positive, so `gix` is always set. -/
def buildLeftLookup (p g h B : Int) : Option Lookup := do
  let gi ← BigInt.modInverse 0 g p
  pure ((counted 0 B).foldl (fun lookup x1 =>
    let gix := BigInt.exp 1 gi x1 p
    let res := gix * h
    let res := res % p
    (bigIntToHex res,BigInt.int64 x1) :: lookup) [])

/-- No result is the panic after the loop. -/
def searchLeft (lookup : Lookup) (p g B : Int) : Option (Int × Int) :=
  (counted 2 B).findSome? fun x0 =>
    let result := x0 * B
    let result := BigInt.exp result g result p
    (lookup.lookup (bigIntToHex result)).map fun x1 => (BigInt.int64 x0,x1)

def Returns (p g h B : ℕ) : Prop :=
  ∃ lookup r, buildLeftLookup p g h B = some lookup ∧ searchLeft lookup p g B = some r

/-- The search returns a pair that makes up a logarithm of `h`. -/
def Finds (p g h B : ℕ) : Prop :=
  ∃ (lookup : Lookup) (x0 x1 : ℕ), buildLeftLookup p g h B = some lookup ∧
    searchLeft lookup p g B = some ((x0 : Int),(x1 : Int)) ∧ g ^ (x0 * B + x1) % p = h

/-- A logarithm of `h` is made up of exponents of both loops. -/
def InReach (p g h B : ℕ) : Prop :=
  ∃ y, 3 * B + 1 ≤ y ∧ y ≤ (B + 1) * (B + 1) ∧ g ^ y % p = h

private theorem mem_counted {s B : ℕ} {x : Int} :
    x ∈ counted s B ↔ ∃ n : ℕ, s < n ∧ n ≤ B + 1 ∧ x = n := by
  simp only [counted, List.mem_map, List.mem_range]
  constructor
  · rintro ⟨i,hi,rfl⟩
    exact ⟨s + 1 + i,by omega,by omega,by push_cast; ring⟩
  · rintro ⟨n,hs,hB,rfl⟩
    exact ⟨n - s - 1,by omega,by omega⟩

section Arithmetic
variable {p g d h : ℕ}

/-- Dividing by a power of `g` is multiplying with one of its inverse. -/
theorem inverse_pow_modEq_iff (hinverse : g * d ≡ 1 [MOD p]) (n k : ℕ) :
    d ^ k * h ≡ g ^ n [MOD p] ↔ g ^ (n + k) ≡ h [MOD p] := by
  have hone : g ^ k * d ^ k ≡ 1 [MOD p] := by
    have hpow := hinverse.pow k
    rwa [mul_pow, one_pow] at hpow
  constructor
  · intro heq
    calc
      g ^ (n + k) = g ^ k * g ^ n := by rw [pow_add, mul_comm]
      _ ≡ g ^ k * (d ^ k * h) [MOD p] := heq.symm.mul_left _
      _ = g ^ k * d ^ k * h := by rw [mul_assoc]
      _ ≡ 1 * h [MOD p] := hone.mul_right _
      _ = h := one_mul h
  · intro heq
    calc
      d ^ k * h ≡ d ^ k * g ^ (n + k) [MOD p] := heq.symm.mul_left _
      _ = g ^ k * d ^ k * g ^ n := by rw [pow_add]; ring
      _ ≡ 1 * g ^ n [MOD p] := hone.mul_right _
      _ = g ^ n := one_mul _

/-- The exponents of both loops together leave no gap. -/
theorem covered_iff {B : ℕ} (hB : 2 ≤ B) (y : ℕ) :
    (∃ x0 x1, 2 < x0 ∧ x0 ≤ B + 1 ∧ 0 < x1 ∧ x1 ≤ B + 1 ∧ y = x0 * B + x1) ↔
      3 * B + 1 ≤ y ∧ y ≤ (B + 1) * (B + 1) := by
  constructor
  · rintro ⟨x0,x1,h2,hx0,h0,hx1,rfl⟩
    have hlow : 3 * B ≤ x0 * B := Nat.mul_le_mul_right B h2
    have hhigh : x0 * B ≤ (B + 1) * B := Nat.mul_le_mul_right B hx0
    have hsquare : (B + 1) * (B + 1) = (B + 1) * B + (B + 1) := by ring
    omega
  · rintro ⟨hlow,hhigh⟩
    by_cases hlast : y ≤ (B + 1) * B
    · have hdiv := Nat.div_add_mod' (y - 1) B
      have hmod := Nat.mod_lt (y - 1) (show 0 < B by omega)
      have hleast : 3 ≤ (y - 1) / B := (Nat.le_div_iff_mul_le (by omega)).mpr (by omega)
      have hmost : (y - 1) / B < B + 1 := (Nat.div_lt_iff_lt_mul (by omega)).mpr (by omega)
      exact ⟨(y - 1) / B,(y - 1) % B + 1,by omega,by omega,by omega,by omega,by omega⟩
    · have hsquare : (B + 1) * (B + 1) = (B + 1) * B + (B + 1) := by ring
      exact ⟨B + 1,y - (B + 1) * B,by omega,le_refl _,by omega,by omega,by omega⟩

end Arithmetic

/-- What has been assigned last in a loop is looked up first. -/
theorem foldl_assign {α κ β : Type} (key : α → κ) (value : α → β) (xs : List α) (l : List (κ × β)) :
    xs.foldl (fun l x => (key x,value x) :: l) l = (xs.map fun x => (key x,value x)).reverse ++ l := by
  induction xs generalizing l with
  | nil => rfl
  | cons x xs ih => rw [List.foldl_cons, ih, List.map_cons, List.reverse_cons, List.append_assoc]; rfl

section Search
variable {p g h B : ℕ}

/-- What is stored in a round, at numbers. -/
theorem entry_eq {d : ℕ} (hp : p.Prime) (n : ℕ) :
    BigInt.exp 1 d n p * h % p = ((d ^ n * h % p : ℕ) : Int) := by
  rw [BigInt.exp_natCast hp.ne_zero]
  push_cast
  exact (Int.mod_modEq _ _).mul_right _

/-- The entries of the table, with the inverse of `g` to a power. -/
theorem buildLeftLookup_spec (hp : p.Prime) (hg : 0 < g) (hlt : g < p) (h B : ℕ) :
    ∃ (d : ℕ) (lookup : Lookup), g * d ≡ 1 [MOD p] ∧ buildLeftLookup p g h B = some lookup ∧
      ∀ e, e ∈ lookup ↔ ∃ x1 : ℕ, 0 < x1 ∧ x1 ≤ B + 1 ∧
        e = (bigIntToHex (d ^ x1 * h % p : ℕ),BigInt.int64 x1) := by
  have hcoprime : Nat.gcd g p = 1 := (Nat.coprime_of_lt_prime (by omega) hlt hp).symm
  obtain ⟨d,hd,hinverse⟩ := BigInt.modInverse_spec (g := g) (n := p) (by exact_mod_cast hp.pos)
    hcoprime 0
  refine ⟨d,_,by exact_mod_cast hinverse,by rw [buildLeftLookup, hd]; rfl,?_⟩
  intro e
  rw [foldl_assign, List.append_nil, List.mem_reverse, List.mem_map]
  constructor
  · rintro ⟨x1,hx1,rfl⟩
    obtain ⟨n,h0,hn,rfl⟩ := mem_counted.mp hx1
    exact ⟨n,h0,hn,by rw [← entry_eq hp]⟩
  · rintro ⟨n,h0,hn,rfl⟩
    exact ⟨n,mem_counted.mpr ⟨n,h0,hn,rfl⟩,by rw [← entry_eq hp]⟩

/-- An entry for the text of a number holds an exponent at which they agree. -/
theorem lookup_some {d n : ℕ} {lookup : Lookup} {v : Int}
    (hentries : ∀ e, e ∈ lookup ↔ ∃ x1 : ℕ, 0 < x1 ∧ x1 ≤ B + 1 ∧
      e = (bigIntToHex (d ^ x1 * h % p : ℕ),BigInt.int64 x1))
    (hv : lookup.lookup (bigIntToHex n) = some v) :
    ∃ x1 : ℕ, 0 < x1 ∧ x1 ≤ B + 1 ∧ d ^ x1 * h % p = n ∧ v = BigInt.int64 x1 := by
  obtain ⟨front,rest,rfl,_⟩ := List.lookup_eq_some_iff.mp hv
  obtain ⟨x1,h0,hx1,hentry⟩ := (hentries (bigIntToHex n,v)).mp (by simp)
  obtain ⟨hkey,hvalue⟩ := Prod.mk.inj hentry
  exact ⟨x1,h0,hx1,(BigInt.hex_bytes_injective hkey).symm,hvalue⟩

private theorem lookup_isSome {d n x1 : ℕ} {lookup : Lookup}
    (hentries : ∀ e, e ∈ lookup ↔ ∃ x1 : ℕ, 0 < x1 ∧ x1 ≤ B + 1 ∧
      e = (bigIntToHex (d ^ x1 * h % p : ℕ),BigInt.int64 x1))
    (h0 : 0 < x1) (hx1 : x1 ≤ B + 1) (hn : d ^ x1 * h % p = n) :
    (lookup.lookup (bigIntToHex n)).isSome := by
  apply List.lookup_isSome_iff.mpr
  exact ⟨_,(hentries _).mpr ⟨x1,h0,hx1,rfl⟩,by rw [hn]; exact beq_self_eq_true _⟩

/-- The test of the search, at numbers. -/
theorem exp_giant (hp : p.Prime) (z : Int) (x0 : ℕ) :
    BigInt.exp z g (x0 * B) p = ((g ^ (x0 * B) % p : ℕ) : Int) := by
  rw [← Nat.cast_mul, BigInt.exp_natCast hp.ne_zero]

/-- The search returns exactly if some pair of exponents of both loops makes up a logarithm, and
a pair that it returns does unless it has more than 64 bits. -/
theorem searchLeft_spec (hp : p.Prime) (hg : 0 < g) (hlt : g < p) (hh : h < p) :
    ∃ lookup, buildLeftLookup p g h B = some lookup ∧
      ((searchLeft lookup p g B).isSome ↔ ∃ x0 x1, 2 < x0 ∧ x0 ≤ B + 1 ∧ 0 < x1 ∧ x1 ≤ B + 1 ∧
        g ^ (x0 * B + x1) % p = h) ∧
      ∀ r, searchLeft lookup p g B = some r → ∃ x0 x1 : ℕ,
        (2 < x0 ∧ x0 ≤ B + 1 ∧ 0 < x1 ∧ x1 ≤ B + 1 ∧ g ^ (x0 * B + x1) % p = h) ∧
          r = (BigInt.int64 x0,BigInt.int64 x1) := by
  obtain ⟨d,lookup,hinverse,hbuild,hentries⟩ := buildLeftLookup_spec hp hg hlt h B
  have hmatch (x0 x1 : ℕ) : d ^ x1 * h % p = g ^ (x0 * B) % p ↔ g ^ (x0 * B + x1) % p = h := by
    have hiff := inverse_pow_modEq_iff (h := h) hinverse (x0 * B) x1
    rw [Nat.ModEq, Nat.ModEq, Nat.mod_eq_of_lt hh] at hiff
    exact hiff
  have hfound (r : Int × Int) (hr : searchLeft lookup p g B = some r) : ∃ x0 x1 : ℕ,
      (2 < x0 ∧ x0 ≤ B + 1 ∧ 0 < x1 ∧ x1 ≤ B + 1 ∧ g ^ (x0 * B + x1) % p = h) ∧
        r = (BigInt.int64 x0,BigInt.int64 x1) := by
    obtain ⟨_,hmem,hr⟩ := List.exists_of_findSome?_eq_some hr
    obtain ⟨x0,h2,hx0,rfl⟩ := mem_counted.mp hmem
    simp only [exp_giant hp] at hr
    obtain ⟨v,hv,hvalue⟩ := Option.map_eq_some_iff.mp hr
    obtain ⟨x1,h0,hx1,heq,hv⟩ := lookup_some hentries hv
    rw [hv] at hvalue
    exact ⟨x0,x1,⟨h2,hx0,h0,hx1,(hmatch x0 x1).mp heq⟩,hvalue.symm⟩
  refine ⟨lookup,hbuild,?_,hfound⟩
  constructor
  · intro hsome
    obtain ⟨r,hr⟩ := Option.isSome_iff_exists.mp hsome
    obtain ⟨x0,x1,hpair,_⟩ := hfound r hr
    exact ⟨x0,x1,hpair⟩
  · rintro ⟨x0,x1,h2,hx0,h0,hx1,heq⟩
    refine List.findSome?_isSome_iff.mpr ⟨x0,mem_counted.mpr ⟨x0,h2,hx0,rfl⟩,?_⟩
    simp only [exp_giant hp, Option.isSome_map]
    exact lookup_isSome hentries h0 hx1 ((hmatch x0 x1).mpr heq)

/-- What both loops cover decides whether the search comes to its end. -/
theorem returns_iff (hp : p.Prime) (hg : 0 < g) (hlt : g < p) (hh : h < p) (hB : 2 ≤ B) :
    Returns p g h B ↔ InReach p g h B := by
  obtain ⟨lookup,hbuild,hsome,_⟩ := searchLeft_spec (B := B) hp hg hlt hh
  constructor
  · rintro ⟨lookup',r,hbuild',hsearch⟩
    rw [hbuild, Option.some.injEq] at hbuild'
    subst hbuild'
    obtain ⟨x0,x1,h2,hx0,h0,hx1,heq⟩ := hsome.mp (Option.isSome_iff_exists.mpr ⟨r,hsearch⟩)
    obtain ⟨hlow,hhigh⟩ := (covered_iff hB (x0 * B + x1)).mp ⟨x0,x1,h2,hx0,h0,hx1,rfl⟩
    exact ⟨x0 * B + x1,hlow,hhigh,heq⟩
  · rintro ⟨y,hlow,hhigh,heq⟩
    obtain ⟨x0,x1,h2,hx0,h0,hx1,rfl⟩ := (covered_iff hB y).mpr ⟨hlow,hhigh⟩
    obtain ⟨r,hr⟩ := Option.isSome_iff_exists.mp (hsome.mpr ⟨x0,x1,h2,hx0,h0,hx1,heq⟩)
    exact ⟨lookup,r,hbuild,hr⟩

/-- Exponents of 64 bits are returned as they were counted. -/
theorem finds_of_returns (hp : p.Prime) (hg : 0 < g) (hlt : g < p) (hh : h < p)
    (hsmall : B + 1 < 2 ^ 63) (hreturns : Returns p g h B) : Finds p g h B := by
  obtain ⟨lookup,hbuild,_,hpair⟩ := searchLeft_spec (B := B) hp hg hlt hh
  obtain ⟨lookup',r,hbuild',hr⟩ := hreturns
  rw [hbuild, Option.some.injEq] at hbuild'
  subst hbuild'
  obtain ⟨x0,x1,⟨_,hx0,_,hx1,heq⟩,hvalue⟩ := hpair r hr
  rw [BigInt.int64_natCast (by omega), BigInt.int64_natCast (by omega)] at hvalue
  exact ⟨lookup,x0,x1,hbuild,hr.trans (congrArg some hvalue),heq⟩

end Search

/-- The search returns exactly if `h` has a logarithm in reach, and with exponents of 64 bits
what it returns is one. -/
theorem searchLeft_finds_iff {p g B x : ℕ} (hp : p.Prime) (hg : 0 < g) (hlt : g < p) (hx : 1 ≤ x)
    (hxB : x < B * B) : (Returns p g (g ^ x % p) B ↔ InReach p g (g ^ x % p) B) ∧
      (B + 1 < 2 ^ 63 → (Finds p g (g ^ x % p) B ↔ InReach p g (g ^ x % p) B)) := by
  have hB : 2 ≤ B := by
    by_contra hless
    have hsquare : B * B ≤ 1 * 1 := Nat.mul_le_mul (by omega) (by omega)
    omega
  have hh : g ^ x % p < p := Nat.mod_lt _ hp.pos
  have hreturns := returns_iff hp hg hlt hh hB
  refine ⟨hreturns,fun hsmall => ?_⟩
  constructor
  · rintro ⟨lookup,x0,x1,hbuild,hsearch,_⟩
    exact hreturns.mp ⟨lookup,_,hbuild,hsearch⟩
  · intro hreach
    exact finds_of_returns hp hg hlt hh hsmall (hreturns.mpr hreach)

/-- The logarithm 5 of 32 to the base 2 modulo 101 is less than `3B + 1`, but 105 is in reach. -/
theorem searchLeft_finds_later : Finds 101 2 (2 ^ 5 % 101) 10 :=
  ((searchLeft_finds_iff (by norm_num) (by norm_num) (by norm_num) (by norm_num) (by norm_num)).2
    (by norm_num)).mpr ⟨105,by norm_num,by norm_num,by decide +kernel⟩

/-- With a smaller table the least logarithm is out of reach. -/
theorem searchLeft_panics :
    (buildLeftLookup 101 2 (2 ^ 1 % 101) 4).map (fun lookup => searchLeft lookup 101 2 4) = some none ∧
    ¬ Finds 101 2 (2 ^ 1 % 101) 4 := by
  have hpanic : (buildLeftLookup 101 2 (2 ^ 1 % 101) 4).map (fun lookup => searchLeft lookup 101 2 4) =
      some none := by decide +kernel
  refine ⟨hpanic,?_⟩
  rintro ⟨lookup,x0,x1,hbuild,hsearch,_⟩
  have hnone : searchLeft lookup 101 2 4 = none := by
    have hmap := congrArg (Option.map fun lookup => searchLeft lookup 101 2 4) hbuild
    exact Option.some.inj (hmap.symm.trans hpanic)
  cases hsearch.symm.trans hnone

end CryptoPlaypen.Dlog
