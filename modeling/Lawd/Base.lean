import Mathlib.Algebra.Ring.Int.Defs
import Mathlib.Data.Int.Order.Basic

/-!
# Base types

Identifiers, versions and times have the types of the source, so that their sums
wrap where those of the source do. Error codes are an enumeration: only which
code is returned matters, except that the byte counts of an input or output call
are told apart from the codes.
-/
namespace Lawd

/-- `law_id_t`. -/
abbrev Id := BitVec 64

/-- `law_vers_t`. -/
abbrev Vers := BitVec 32

/-- `law_time_t`, in milliseconds. -/
abbrev Time := Int64

instance : LinearOrder Time where
  le_refl := Int64.le_refl
  le_trans _ _ _ := Int64.le_trans
  le_antisymm _ _ := Int64.le_antisymm
  le_total := Int64.le_total
  lt_iff_le_not_ge a b := by
    rw [Int64.lt_iff_toInt_lt, Int64.le_iff_toInt_le, Int64.le_iff_toInt_le]
    omega
  toDecidableLE := inferInstance
  toDecidableLT := inferInstance
  toDecidableEq := inferInstance

theorem time_add {a b : Time} (hle : -2 ^ 63 ≤ a.toInt + b.toInt)
    (hlt : a.toInt + b.toInt < 2 ^ 63) : (a + b).toInt = a.toInt + b.toInt := by
  rw [Int64.toInt_add]
  exact Int.bmod_eq_of_le (by omega) (by omega)

theorem time_add_wraps {a b : Time} (h : 2 ^ 63 ≤ a.toInt + b.toInt) :
    (a + b).toInt = a.toInt + b.toInt - 2 ^ 64 := by
  have ha := a.toInt_lt
  have hb := b.toInt_lt
  rw [Int64.toInt_add, Int.bmod_def]
  omega

theorem time_add_le (a : Time) {b : Time} (hb : 0 ≤ b) :
    (a + b).toInt ≤ a.toInt + b.toInt := by
  rw [Int64.le_iff_toInt_le, Int64.toInt_zero] at hb
  have hle := a.le_toInt
  have hlt := (a + b).toInt_lt
  by_cases h : a.toInt + b.toInt < 2 ^ 63
  · exact le_of_eq (time_add (by omega) h)
  · omega

theorem time_sub {a b : Time} (ha : 0 ≤ a) (hb : 0 ≤ b) : (a - b).toInt = a.toInt - b.toInt := by
  rw [Int64.le_iff_toInt_le, Int64.toInt_zero] at ha hb
  have hlt := a.toInt_lt
  have hlt' := b.toInt_lt
  rw [Int64.toInt_sub]
  exact Int.bmod_eq_of_le (by omega) (by omega)

/-- `LAW_ID_MODULO`: task ids have 56 bits. -/
def idModulo : Id := 0x100000000000000

/-- `enum law_err_type`, and the code `LAW_ERR_WS` of the WebSocket reader. -/
inductive Err where
  | ok
  | sys
  | oob
  | cmp
  | enc
  | syn
  | flo
  | oom
  | mode
  | gai
  | wantw
  | wantr
  | time
  | limit
  | eof
  | ssl
  | vers
  | noid
  | sslAcceptFailed
  | sslShutdownFailed
  | reqlineTooLong
  | headersTooLong
  | reqlineMalformed
  | headersMalformed
  | reqlineTimeout
  | headersTimeout
  | sslShutdownTimeout
  | ws
  deriving DecidableEq, Repr

/-- The codes on which `law_sync` suspends the task and calls again. -/
def Err.wants : Err → Bool
  | .wantr => true
  | .wantw => true
  | _ => false

end Lawd
