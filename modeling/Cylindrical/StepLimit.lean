/-!
# Loops that end for outside reasons

Some loops end only because of what their arguments are: a division because the divisor is monic, a
reduction because all polynomials are in one order.  They carry the number of steps they may take:
as many as they need where the reason holds, and `stepLimit` more for other arguments.
-/

namespace Cylindrical

/-- More steps than any computation takes. -/
@[irreducible]
def stepLimit : Nat := Nat.pow 2 62

end Cylindrical
