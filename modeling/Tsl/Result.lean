import Mathlib.Data.Nat.Notation

set_option autoImplicit false

/-! # Result codes

`tsl/result.h` and `tsl/errors.h`: an `aresult_t` is a 32-bit word with an error bit, a warning
bit, a facility and a code. Callbacks may return any word, so the type is the whole word and not an
enumeration of the listed codes. -/

namespace Tsl

/-- `aresult_t`. -/
abbrev AResult := BitVec 32

/-- `TSL_MASK(x)`. -/
def tslMask (x : ℕ) : AResult := (1#32 <<< x) - 1#32

/-- `TSL_DEPOSIT(val, off, len)`. -/
def tslDeposit (val : AResult) (off len : ℕ) : AResult := (val &&& tslMask len) <<< off

/-- `ARESULT_CODE(err, warn, facil, code)`. -/
def aresultCode (err warn : Bool) (facil code : AResult) : AResult :=
  (if err then 1#32 else 0#32) <<< (31 : ℕ) ||| (if warn then 1#32 else 0#32) <<< (30 : ℕ) |||
    tslDeposit facil 16 14 ||| tslDeposit code 0 16

/-- `ARESULT_ERROR(facil, code)`. -/
def aresultError (facil code : AResult) : AResult := aresultCode true false facil code

/-- `FACIL_SYSTEM`. -/
def facilSystem : AResult := 0#32

/-- `AFAILED(x)`: the error bit, `ARESULT_ERROR_BIT`, is set. -/
def afailed (x : AResult) : Bool := x.getLsbD 31

/-! ## The generic codes of `tsl/errors.h` -/

def aOk : AResult := aresultCode false false facilSystem 0#32
def aENomem : AResult := aresultError facilSystem 1#32
def aEBadargs : AResult := aresultError facilSystem 2#32
def aENotfound : AResult := aresultError facilSystem 3#32
def aEBusy : AResult := aresultError facilSystem 4#32
def aEInval : AResult := aresultError facilSystem 5#32
def aENothread : AResult := aresultError facilSystem 6#32
def aEEmpty : AResult := aresultError facilSystem 7#32
def aENoent : AResult := aresultError facilSystem 9#32
def aENospc : AResult := aresultError facilSystem 11#32

@[simp] theorem afailed_aOk : afailed aOk = false := rfl

/-- Every code built by `ARESULT_ERROR` signals a failure, whatever its facility and code. -/
theorem afailed_aresultError (facil code : AResult) : afailed (aresultError facil code) = true := by
  simp [afailed, aresultError, aresultCode]

theorem ne_aOk_of_afailed {x : AResult} (h : afailed x = true) : x ≠ aOk := by
  rintro rfl
  simp at h

theorem aresultError_ne_aOk (facil code : AResult) : aresultError facil code ≠ aOk :=
  ne_aOk_of_afailed (afailed_aresultError facil code)

end Tsl
