import Xv6.User.Printf

/-!
# `primes`

`user/primes.c`, with the last number `N` that `main` writes (35 in the source) as a parameter.
Neither `sieve` nor its loop returns, so both are blocks of the program that processes run.
-/

namespace Xv6.Primes

open User

/-- An `int` in memory. -/
def toBytes (n : Int) : List UInt8 :=
  let v := (n % 2 ^ 32).toNat
  [UInt8.ofNat v, UInt8.ofNat (v / 2 ^ 8), UInt8.ofNat (v / 2 ^ 16), UInt8.ofNat (v / 2 ^ 24)]

def ofBytes (bs : List UInt8) : Int :=
  let v : Nat := bs.foldr (fun b v => b.toNat + 2 ^ 8 * v) 0
  if v < 2 ^ 31 then v else v - 2 ^ 32

inductive Label where
  /-- The loop of `main` with `p[1]` and `i`. -/
  | feed (w i : Nat)
  /-- `sieve(left)`. -/
  | sieve (left : Nat × Nat)
  /-- The loop of `sieve` with `left[0]`, `right[1]` and `prime`. -/
  | filter (left right : Nat) (prime : Int)

/-- `printf("prime %d\n", prime)`. -/
def line (prime : Int) : List UInt8 := bytes "prime " ++ printint prime 10 true ++ bytes "\n"

def sieve (left : Nat × Nat) : Code Label := do
  let _ ← close left.2
  let got ← read left.1 4
  -- a failed `read` returns -1
  if (got.getD []).length ≠ 4 then
    let _ ← close left.1
    exit 0
  else
    let prime := ofBytes (got.getD [])
    puts 1 (line prime)
    match ← pipe with
    | none =>
      puts 2 (bytes "sieve: pipe failed\n")
      exit 1
    | some right =>
      if (← fork) = 0 then
        let _ ← close right.2
        let _ ← close left.1
        pure (.sieve right)
      else
        let _ ← close right.1
        pure (.filter left.1 right.2 prime)

/-- The rounds of the loop in `sieve`, and what follows it. -/
def filter (left right : Nat) (prime : Int) : Code Label := do
  let got ← read left 4
  if (got.getD []).length = 4 then
    let n := ofBytes (got.getD [])
    if n.tmod prime ≠ 0 then
      let _ ← write right (toBytes n)
      pure (.filter left right prime)
    else
      pure (.filter left right prime)
  else
    let _ ← close left
    let _ ← close right
    let _ ← wait
    exit 0

/-- The rounds of the loop in `main`, and what follows it. -/
def feed (N w i : Nat) : Code Label :=
  if i ≤ N then do
    let _ ← write w (toBytes i)
    pure (.feed w (i + 1))
  else do
    let _ ← close w
    let _ ← wait
    exit 0

def main : Code Label := do
  -- the result of `pipe` is not looked at
  let p := (← pipe).getD (0, 0)
  if (← fork) = 0 then
    let _ ← close p.2
    pure (.sieve p)
  else
    let _ ← close p.1
    pure (.feed p.2 2)

/-- The blocks of the program. -/
def prog (N : Nat) : Label → Code Label
  | .feed w i => feed N w i
  | .sieve left => sieve left
  | .filter left right prime => filter left right prime

@[simp] theorem length_toBytes (n : Int) : (toBytes n).length = 4 := rfl

theorem ofBytes_toBytes {n : Nat} (h : n < 2 ^ 31) : ofBytes (toBytes n) = n := by
  have hmod : ((n : Int) % 2 ^ 32).toNat = n := by omega
  simp only [ofBytes, toBytes, hmod, List.foldr_cons, List.foldr_nil, UInt8.toNat_ofNat']
  have hval : n % 2 ^ 8 + 2 ^ 8 * (n / 2 ^ 8 % 2 ^ 8 + 2 ^ 8 * (n / 2 ^ 16 % 2 ^ 8 + 2 ^ 8 *
      (n / 2 ^ 24 % 2 ^ 8 + 2 ^ 8 * 0))) = n := by
    omega
  rw [hval, if_pos h]

end Xv6.Primes
