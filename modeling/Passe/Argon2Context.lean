import Passe.Runtime

/-!
# Contexts, error codes and input validation

The constants and records of `argon2.h` and `passe_validate_inputs` from
`core.c`. A pointer with its buffer is an `Option`, so a null pointer is `none`.
Everything that depends on the machine takes a `Host` as its first parameter: whether
plain `char` is signed there, and which requests for memory and threads it grants.
-/
namespace Passe.Argon2

/-- The codes of `argon2_error_codes` other than `ARGON2_OK`. -/
inductive ErrorCode
  | outputPtrNull
  | outputTooShort
  | outputTooLong
  | pwdTooShort
  | pwdTooLong
  | saltTooShort
  | saltTooLong
  | adTooShort
  | adTooLong
  | secretTooShort
  | secretTooLong
  | timeTooSmall
  | timeTooLarge
  | memoryTooLittle
  | memoryTooMuch
  | lanesTooFew
  | lanesTooMany
  | pwdPtrMismatch
  | saltPtrMismatch
  | secretPtrMismatch
  | adPtrMismatch
  | memoryAllocationError
  | freeMemoryCbkNull
  | allocateMemoryCbkNull
  | incorrectParameter
  | threadsTooFew
  | threadsTooMany
  | encodingFail
  | decodingFail
  | threadFail
  | verifyMismatch
  deriving DecidableEq, Repr

/-- The value of a code in `argon2_error_codes`. The codes that no modelled function returns are
left out. -/
def ErrorCode.toInt : ErrorCode → ℤ
  | outputPtrNull => -1
  | outputTooShort => -2
  | outputTooLong => -3
  | pwdTooShort => -4
  | pwdTooLong => -5
  | saltTooShort => -6
  | saltTooLong => -7
  | adTooShort => -8
  | adTooLong => -9
  | secretTooShort => -10
  | secretTooLong => -11
  | timeTooSmall => -12
  | timeTooLarge => -13
  | memoryTooLittle => -14
  | memoryTooMuch => -15
  | lanesTooFew => -16
  | lanesTooMany => -17
  | pwdPtrMismatch => -18
  | saltPtrMismatch => -19
  | secretPtrMismatch => -20
  | adPtrMismatch => -21
  | memoryAllocationError => -22
  | freeMemoryCbkNull => -23
  | allocateMemoryCbkNull => -24
  | incorrectParameter => -25
  | threadsTooFew => -28
  | threadsTooMany => -29
  | encodingFail => -31
  | decodingFail => -32
  | threadFail => -33
  | verifyMismatch => -35

/-- A call that returns `ARGON2_OK` with a result, or another code and nothing that its caller
may use. -/
abbrev Result (α : Type) := Except ErrorCode α

/-- What a call asks of the operating system. Each request names what it is for, so that a host
can refuse any of them on its own. -/
inductive Request
  | tagBuffer (size : ℕ)
  | saltBuffer (size : ℕ)
  | desiredBuffer (size : ℕ)
  | memory (size : ℕ)
  | threadHandles (count : ℕ)
  | threadData (count : ℕ)
  | threadCreate (pass slice lane : ℕ)
  | threadJoin (pass slice lane : ℕ)
  deriving DecidableEq, Repr

/-- The machine a call runs on, as far as the code can tell: the sign of `char`, and the answers
to its requests. -/
structure Host where
  signedChar : Bool
  grants : Request → Bool

/-- A host that refuses nothing: every allocation and every operation on a thread succeeds. -/
def Host.Generous (host : Host) : Prop := ∀ r, host.grants r = true

inductive Argon2Type
  | d
  | i
  | id
  deriving DecidableEq, Repr

def Argon2Type.toUInt32 : Argon2Type → UInt32
  | d => 0
  | i => 1
  | id => 2

/-- `passe_argon2_type2string` with lower case. The name of one type is a prefix of another. -/
def argon2Type2string : Argon2Type → Bytes
  | .d => ascii "argon2d"
  | .i => ascii "argon2i"
  | .id => ascii "argon2id"

def argon2Version10 : UInt32 := 0x10
def argon2VersionNumber : UInt32 := 0x13

/-- `argon2_context`, without the wipe flags, which no caller sets. No caller sets a callback
either, and the checks only compare them with `NULL`, so a truth value is enough. -/
structure Context where
  out : Option Bytes
  outlen : UInt32
  pwd : Option Bytes
  pwdlen : UInt32
  salt : Option Bytes
  saltlen : UInt32
  secret : Option Bytes
  secretlen : UInt32
  ad : Option Bytes
  adlen : UInt32
  tCost : UInt32
  mCost : UInt32
  lanes : UInt32
  threads : UInt32
  version : UInt32
  allocateCbk : Bool
  freeCbk : Bool

/-- The context `passe_argon2_hash` fills in. The lengths are narrowed to 32 bits here, after
the checks that make sure of it. -/
def hashContext (t_cost m_cost parallelism : UInt32) (pwd salt out : Bytes) (version : UInt32) :
    Context where
  out := some out
  outlen := UInt32.ofNat out.length
  pwd := some pwd
  pwdlen := UInt32.ofNat pwd.length
  salt := some salt
  saltlen := UInt32.ofNat salt.length
  secret := none
  secretlen := 0
  ad := none
  adlen := 0
  tCost := t_cost
  mCost := m_cost
  lanes := parallelism
  threads := parallelism
  version := version
  allocateCbk := false
  freeCbk := false

def argon2MinLanes : UInt32 := 1
def argon2MaxLanes : UInt32 := 0xFFFFFF
def argon2MinThreads : UInt32 := 1
def argon2MaxThreads : UInt32 := 0xFFFFFF
def argon2SyncPoints : UInt32 := 4
def argon2MinOutlen : UInt32 := 4
def argon2MaxOutlen : UInt32 := 0xFFFFFFFF
def argon2MinMemory : UInt32 := 2 * argon2SyncPoints
def argon2MaxMemory : UInt32 := 0xFFFFFFFF
def argon2MinTime : UInt32 := 1
def argon2MaxTime : UInt32 := 0xFFFFFFFF
def argon2MinPwdLength : UInt32 := 0
def argon2MaxPwdLength : UInt32 := 0xFFFFFFFF
def argon2MinAdLength : UInt32 := 0
def argon2MaxAdLength : UInt32 := 0xFFFFFFFF
def argon2MinSaltLength : UInt32 := 8
def argon2MaxSaltLength : UInt32 := 0xFFFFFFFF
def argon2MinSecret : UInt32 := 0
def argon2MaxSecret : UInt32 := 0xFFFFFFFF

/-- `if (c) return code;`, the form that nearly every check of the source has. -/
def reject (c : Prop) [Decidable c] (code : ErrorCode) : Result Unit :=
  if c then .error code else .ok ()

/-- The check of an optional buffer: no length without a buffer, and a length in
range with one. -/
def validateOptional (buf : Option Bytes) (len min max : UInt32)
    (mismatch tooShort tooLong : ErrorCode) : Result Unit :=
  match buf with
  | none => reject (0 ≠ len) mismatch
  | some _ => do
    reject (min > len) tooShort
    reject (max < len) tooLong

/-- `passe_validate_inputs`, check for check in the order of the source. The product of the
lanes wraps at 32 bits. -/
def validateInputs (context : Context) : Result Unit := do
  reject (context.out = none) .outputPtrNull
  reject (argon2MinOutlen > context.outlen) .outputTooShort
  reject (argon2MaxOutlen < context.outlen) .outputTooLong
  reject (context.pwd = none ∧ 0 ≠ context.pwdlen) .pwdPtrMismatch
  reject (argon2MinPwdLength > context.pwdlen) .pwdTooShort
  reject (argon2MaxPwdLength < context.pwdlen) .pwdTooLong
  reject (context.salt = none ∧ 0 ≠ context.saltlen) .saltPtrMismatch
  reject (argon2MinSaltLength > context.saltlen) .saltTooShort
  reject (argon2MaxSaltLength < context.saltlen) .saltTooLong
  validateOptional context.secret context.secretlen argon2MinSecret argon2MaxSecret
    .secretPtrMismatch .secretTooShort .secretTooLong
  validateOptional context.ad context.adlen argon2MinAdLength argon2MaxAdLength
    .adPtrMismatch .adTooShort .adTooLong
  reject (argon2MinMemory > context.mCost) .memoryTooLittle
  reject (argon2MaxMemory < context.mCost) .memoryTooMuch
  reject (context.mCost < 8 * context.lanes) .memoryTooLittle
  reject (argon2MinTime > context.tCost) .timeTooSmall
  reject (argon2MaxTime < context.tCost) .timeTooLarge
  reject (argon2MinLanes > context.lanes) .lanesTooFew
  reject (argon2MaxLanes < context.lanes) .lanesTooMany
  reject (argon2MinThreads > context.threads) .threadsTooFew
  reject (argon2MaxThreads < context.threads) .threadsTooMany
  reject (context.allocateCbk = true ∧ context.freeCbk = false) .freeMemoryCbkNull
  reject (context.allocateCbk = false ∧ context.freeCbk = true) .allocateMemoryCbkNull

section Valid

theorem bind_eq_ok {α β : Type} {x : Result α} {f : α → Result β} {b : β} :
    (x >>= f) = .ok b ↔ ∃ a, x = .ok a ∧ f a = .ok b := by
  cases x <;> simp

@[simp] theorem reject_eq_ok {c : Prop} [Decidable c] {code : ErrorCode} {u : Unit} :
    reject c code = .ok u ↔ ¬ c := by
  by_cases hc : c <;> simp [reject, hc]

@[simp] theorem reject_bind_eq_ok {c : Prop} [Decidable c] {code : ErrorCode} {α : Type}
    {f : Unit → Result α} {a : α} :
    (reject c code >>= f) = .ok a ↔ ¬ c ∧ f () = .ok a := by
  by_cases hc : c <;> simp [reject, hc]

/-- A sequence of calls fails with a code only when one of them does. -/
theorem bind_ne_error {α β : Type} {x : Result α} {f : α → Result β} {code : ErrorCode}
    (hx : x ≠ .error code) (hf : ∀ a, f a ≠ .error code) : (x >>= f) ≠ .error code := by
  cases x with
  | error e => exact fun h => hx (congrArg Except.error (Except.error.inj h))
  | ok a => exact hf a

theorem reject_ne_error {c : Prop} [Decidable c] {code code' : ErrorCode} (h : code' ≠ code) :
    reject c code' ≠ .error code := by
  by_cases hc : c <;> simp [reject, hc, h]

theorem reject_bind_of_true {c : Prop} [Decidable c] (hc : c) (code : ErrorCode) {α : Type}
    (f : Unit → Result α) : (reject c code >>= f) = .error code := by
  simp [reject, hc]

/-- No 32-bit length is above the largest one, and none is below zero. -/
theorem not_max_lt (x : UInt32) : ¬ (0xFFFFFFFF : UInt32) < x := by
  have hx := x.toNat_lt
  have hmax : (0xFFFFFFFF : UInt32).toNat = 2 ^ 32 - 1 := rfl
  rw [UInt32.lt_iff_toNat_lt, hmax]
  omega

theorem not_lt_zero (x : UInt32) : ¬ (0 : UInt32) > x := by
  rw [gt_iff_lt, UInt32.lt_iff_toNat_lt, UInt32.toNat_zero]
  omega

/-- An optional buffer passes when it is there or its length is zero. -/
@[simp] theorem validateOptional_bind_eq_ok {buf : Option Bytes} {len : UInt32}
    {e e' e'' : ErrorCode} {α : Type} {f : Unit → Result α} {a : α} :
    (validateOptional buf len 0 0xFFFFFFFF e e' e'' >>= f) = .ok a ↔
      (buf = none → len = 0) ∧ f () = .ok a := by
  cases buf with
  | none =>
    simp only [validateOptional, reject_bind_eq_ok, forall_const, ne_eq, not_not]
    exact and_congr_left fun _ => eq_comm
  | some b =>
    have hpass : validateOptional (some b) len 0 0xFFFFFFFF e e' e'' = .ok () := by
      unfold validateOptional
      rw [reject_bind_eq_ok, reject_eq_ok]
      exact ⟨not_lt_zero len, not_max_lt len⟩
    simp [hpass]

/-- What `validateInputs` establishes, with the lengths and costs as numbers, so that nothing
behind it has to think of 32 bits again. -/
structure Context.Valid (context : Context) : Prop where
  out_ne_none : context.out ≠ none
  outlen_ge : 4 ≤ context.outlen.toNat
  pwdlen_eq : context.pwd = none → context.pwdlen = 0
  salt_ne_none : context.salt ≠ none
  saltlen_ge : 8 ≤ context.saltlen.toNat
  secretlen_eq : context.secret = none → context.secretlen = 0
  adlen_eq : context.ad = none → context.adlen = 0
  mCost_ge : 8 ≤ context.mCost.toNat
  mCost_ge_lanes : 8 * context.lanes.toNat ≤ context.mCost.toNat
  tCost_pos : 1 ≤ context.tCost.toNat
  lanes_pos : 1 ≤ context.lanes.toNat
  lanes_le : context.lanes.toNat ≤ 0xFFFFFF
  threads_pos : 1 ≤ context.threads.toNat
  threads_le : context.threads.toNat ≤ 0xFFFFFF
  cbk_eq : context.allocateCbk = context.freeCbk

@[simp] theorem validateInputs_eq_ok_iff {context : Context} :
    validateInputs context = .ok () ↔ context.Valid := by
  have hlanes : (8 * context.lanes).toNat = 8 * context.lanes.toNat % 2 ^ 32 :=
    UInt32.toNat_mul _ _
  simp only [validateInputs, reject_bind_eq_ok, reject_eq_ok, argon2MinSecret, argon2MaxSecret,
    argon2MinAdLength, argon2MaxAdLength, validateOptional_bind_eq_ok, argon2MinOutlen,
    argon2MaxOutlen, argon2MinPwdLength, argon2MaxPwdLength, argon2MinSaltLength,
    argon2MaxSaltLength, argon2MinMemory, argon2SyncPoints, argon2MaxMemory, argon2MinTime,
    argon2MaxTime, argon2MinLanes, argon2MaxLanes, argon2MinThreads, argon2MaxThreads,
    gt_iff_lt, UInt32.lt_iff_toNat_lt, hlanes, UInt32.reduceToNat, UInt32.reduceMul]
  constructor
  · rintro ⟨hout, houtlen, -, hpwd, -, -, hsalt, hsaltlen, -, hsecret, had, hm, -, hml, ht, -,
      hl, hl', hth, hth', hcbk, hcbk'⟩
    have hsaltptr : context.salt ≠ none := by
      intro hnone
      have hzero : 0 = context.saltlen := by_contra fun h0 => hsalt ⟨hnone, h0⟩
      rw [← hzero] at hsaltlen
      exact hsaltlen (by decide)
    have hpwdlen : context.pwd = none → context.pwdlen = 0 := fun hnone =>
      (by_contra fun h0 => hpwd ⟨hnone, h0⟩ : 0 = context.pwdlen).symm
    have hcbks : context.allocateCbk = context.freeCbk := by
      cases ha : context.allocateCbk <;> cases hf : context.freeCbk <;> simp_all
    exact ⟨hout, by omega, hpwdlen, hsaltptr, by omega, hsecret, had, by omega, by omega,
      by omega, by omega, by omega, by omega, by omega, hcbks⟩
  · rintro ⟨hout, houtlen, hpwd, hsaltptr, hsaltlen, hsecret, had, hm, hml, ht, hl, hl', hth,
      hth', hcbk⟩
    have hoverflow := context.outlen.toNat_lt
    have hpwdlen := context.pwdlen.toNat_lt
    have hsaltbound := context.saltlen.toNat_lt
    have hmbound := context.mCost.toNat_lt
    have htbound := context.tCost.toNat_lt
    refine ⟨hout, by omega, by omega, fun h => h.2 (hpwd h.1).symm, by omega, by omega,
      fun h => hsaltptr h.1, by omega, by omega, hsecret, had, by omega, by omega, by omega,
      by omega, by omega, by omega, by omega, by omega, by omega, ?_, ?_⟩ <;>
    · rw [hcbk]
      simp

/-- The checks of the inputs have codes of their own, none of which is about a text. -/
theorem validateInputs_ne_encodingFail (context : Context) :
    validateInputs context ≠ .error .encodingFail := by
  have hoptional : ∀ (buf : Option Bytes) (len : UInt32) {min max e e' e''},
      e ≠ .encodingFail → e' ≠ .encodingFail → e'' ≠ .encodingFail →
        validateOptional buf len min max e e' e'' ≠ .error .encodingFail := by
    intro buf len min max e e' e'' he he' he''
    cases buf with
    | none => exact reject_ne_error he
    | some b => exact bind_ne_error (reject_ne_error he') fun _ => reject_ne_error he''
  unfold validateInputs
  repeat refine bind_ne_error (by first
    | exact reject_ne_error (by decide)
    | exact hoptional _ _ (by decide) (by decide) (by decide)) fun _ => ?_
  exact reject_ne_error (by decide)

end Valid

end Passe.Argon2
