/-!
# Rounded decimals

Numbers written with a fixed count of decimal places. A value halfway between two such numbers goes
to the one whose last digit is even.
-/

namespace LawProof.Text

/-- The whole number nearest to `num / den`, a half going to the even neighbour. -/
def roundDiv (num den : Nat) : Nat :=
  let q := num / den
  let r := num % den
  if 2 * r < den then q
  else if den < 2 * r then q + 1
  else q + q % 2

/-- The number `units / 10 ^ places` written out, with a point only where there are places. -/
def pointed (units places : Nat) : String :=
  let whole := toString (units / Nat.pow 10 places)
  if places = 0 then whole
  else
    let part := toString (units % Nat.pow 10 places)
    whole ++ "." ++ String.ofList (List.replicate (places - part.length) '0') ++ part

/-- The fraction `num / den` with `places` decimals. -/
def fixed (num den places : Nat) : String :=
  pointed (roundDiv (num * Nat.pow 10 places) den) places

/-- A finite double that is not negative, with `places` decimals of its exact value: the stored
fraction `m` and exponent `e` stand for `m * 2 ^ (e - 1075)`. -/
def fixedFloat (x : Float) (places : Nat) : String :=
  let bits := x.toBits.toNat
  let e := bits / Nat.pow 2 52 % Nat.pow 2 11
  let fraction := bits % Nat.pow 2 52
  -- The smallest doubles have no hidden leading one.
  let m := if e = 0 then fraction else fraction + Nat.pow 2 52
  let e := if e = 0 then 1 else e
  if 1075 ≤ e then fixed (m * Nat.pow 2 (e - 1075)) 1 places
  else fixed m (Nat.pow 2 (1075 - e)) places

end LawProof.Text
