import Mathlib.Tactic

/-!
# Base64

The standard encoding with padding: three bytes are a number of 24 bits,
which is written as four characters of an alphabet of 64.  One or two bytes
that are left at the end are filled up with zeros, and the characters that say
nothing about them are padding.
-/

namespace Base64

def letter (n : ℕ) : UInt8 :=
  if n < 26 then UInt8.ofNat (65 + n)
  else if n < 52 then UInt8.ofNat (71 + n)
  else if n < 62 then UInt8.ofNat (n - 4)
  else if n = 62 then 43
  else 47

def pad : UInt8 := 61

def encode : List UInt8 → List UInt8
  | a :: b :: c :: rest =>
    let n := a.toNat * 65536 + b.toNat * 256 + c.toNat
    letter (n / 262144 % 64) :: letter (n / 4096 % 64) ::
      letter (n / 64 % 64) :: letter (n % 64) :: encode rest
  | [a, b] =>
    let n := a.toNat * 65536 + b.toNat * 256
    [letter (n / 262144 % 64), letter (n / 4096 % 64), letter (n / 64 % 64),
      pad]
  | [a] =>
    let n := a.toNat * 65536
    [letter (n / 262144 % 64), letter (n / 4096 % 64), pad, pad]
  | [] => []

def value (c : UInt8) : Option ℕ :=
  if 65 ≤ c ∧ c ≤ 90 then some (c.toNat - 65)
  else if 97 ≤ c ∧ c ≤ 122 then some (c.toNat - 71)
  else if 48 ≤ c ∧ c ≤ 57 then some (c.toNat + 4)
  else if c = 43 then some 62
  else if c = 47 then some 63
  else none

def bytes (w x y z : ℕ) : List UInt8 :=
  let n := w * 262144 + x * 4096 + y * 64 + z
  [UInt8.ofNat (n / 65536), UInt8.ofNat (n / 256 % 256), UInt8.ofNat (n % 256)]

def decode : List UInt8 → Option (List UInt8)
  | [] => some []
  | a :: b :: c :: d :: rest => do
    let w ← value a
    let x ← value b
    if c = pad then
      if d = pad ∧ rest = [] then some ((bytes w x 0 0).take 1) else none
    else if d = pad then do
      let y ← value c
      if rest = [] then some ((bytes w x y 0).take 2) else none
    else do
      let y ← value c
      let z ← value d
      let tail ← decode rest
      some (bytes w x y z ++ tail)
  | _ => none

theorem value_letter : ∀ n < 64, value (letter n) = some n := by decide

theorem letter_ne_pad : ∀ n < 64, letter n ≠ pad := by decide

theorem bytes_eq (a b c : UInt8) {w x y z : ℕ}
    (hn : w * 262144 + x * 4096 + y * 64 + z =
      a.toNat * 65536 + b.toNat * 256 + c.toNat) :
    bytes w x y z = [a, b, c] := by
  have ha := a.toNat_lt
  have hb := b.toNat_lt
  have hc := c.toNat_lt
  unfold bytes
  rw [hn]
  have hfirst : (a.toNat * 65536 + b.toNat * 256 + c.toNat) / 65536 =
      a.toNat := by omega
  have hsecond : (a.toNat * 65536 + b.toNat * 256 + c.toNat) / 256 % 256 =
      b.toNat := by omega
  have hthird : (a.toNat * 65536 + b.toNat * 256 + c.toNat) % 256 =
      c.toNat := by omega
  simp only [hfirst, hsecond, hthird, UInt8.ofNat_toNat]

theorem decode_encode (data : List UInt8) :
    decode (encode data) = some data := by
  have hlt : ∀ k, k % 64 < 64 := fun k => Nat.mod_lt k (by decide)
  fun_induction encode data with
  | case1 a b c rest n ih =>
    have hn : n / 262144 % 64 * 262144 + n / 4096 % 64 * 4096 +
        n / 64 % 64 * 64 + n % 64 =
        a.toNat * 65536 + b.toNat * 256 + c.toNat := by
      have ha := a.toNat_lt
      have hb := b.toNat_lt
      have hc := c.toNat_lt
      simp only [n]
      omega
    simp only [decode, value_letter _ (hlt _), letter_ne_pad _ (hlt _), ih,
      if_false, Option.bind_eq_bind, Option.bind_some, bytes_eq a b c hn]
    rfl
  | case2 a b n =>
    have hn : n / 262144 % 64 * 262144 + n / 4096 % 64 * 4096 +
        n / 64 % 64 * 64 + 0 =
        a.toNat * 65536 + b.toNat * 256 + (0 : UInt8).toNat := by
      have ha := a.toNat_lt
      have hb := b.toNat_lt
      simp only [n, UInt8.toNat_zero]
      omega
    simp only [decode, value_letter _ (hlt _), letter_ne_pad _ (hlt _),
      if_false, if_true, Option.bind_eq_bind, Option.bind_some,
      bytes_eq a b 0 hn]
    rfl
  | case3 a n =>
    have hn : n / 262144 % 64 * 262144 + n / 4096 % 64 * 4096 + 0 * 64 + 0 =
        a.toNat * 65536 + (0 : UInt8).toNat * 256 + (0 : UInt8).toNat := by
      have ha := a.toNat_lt
      simp only [n, UInt8.toNat_zero]
      omega
    simp only [decode, value_letter _ (hlt _), if_true, and_self,
      Option.bind_eq_bind, Option.bind_some, bytes_eq a 0 0 hn]
    rfl
  | case4 => rfl

end Base64
