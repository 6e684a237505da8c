import Passe.Argon2Encoding
import Passe.Argon2Memory

/-!
# Hashing and verification

`argon2.c` on top of the memory-hard function and the encoding, then
`argon2_stub.c` and `argon2.ml`. The widths narrow twice on the way down: the
stub reduces the three costs to 32 bits, and the C entry points narrow the
lengths after they have checked them.
-/
namespace Passe.Argon2
open Decimal

/-- The code of a hashing call and the two buffers of its caller behind it. A missing buffer is
`NULL`. -/
structure Call where
  rc : Result Unit
  hash : Option Bytes
  encoded : Option Bytes

/-- `memcpy` to the front of a buffer. What the buffer holds behind the copied bytes stays
there. -/
def overwrite (bs buf : Bytes) : Bytes := bs ++ buf.drop bs.length

/-- The end of `passe_argon2_hash`, which asks for a text only when there is a buffer with a size.
A text that does not fit leaves the whole buffer wiped. -/
def storeEncoded (encoded : Option Bytes) (encodedlen : ℕ) (text : Result Bytes) :
    Result Unit × Option Bytes :=
  match encoded with
  | none => (.ok (), none)
  | some buf =>
    if encodedlen = 0 then (.ok (), some buf)
    else match text with
      | .ok text => (.ok (), some (overwrite (text ++ [0]) buf))
      | .error _ => (.error .encodingFail, some (overwrite (List.replicate encodedlen 0) buf))

/-- `passe_argon2_hash` up to the tag in a buffer of its own. Nothing of the caller's has been
written by then. -/
def computeTag (host : Host) (t_cost m_cost parallelism : UInt32) (pwd salt : Bytes)
    (hashlen : ℕ) (type : Argon2Type) (version : UInt32) : Result Bytes := do
  reject (pwd.length > argon2MaxPwdLength.toNat) .pwdTooLong
  reject (salt.length > argon2MaxSaltLength.toNat) .saltTooLong
  reject (hashlen > argon2MaxOutlen.toNat) .outputTooLong
  reject (hashlen < argon2MinOutlen.toNat) .outputTooShort
  reject (host.grants (.tagBuffer hashlen) = false) .memoryAllocationError
  argon2Ctx host
    (hashContext t_cost m_cost parallelism pwd salt (List.replicate hashlen 0) version) type

/-- `passe_argon2_hash`: the tag goes to the raw buffer and the text to the other one, as far as
the caller has passed them. -/
def argon2Hash (host : Host) (t_cost m_cost parallelism : UInt32) (pwd salt : Bytes)
    (hash : Option Bytes) (hashlen : ℕ) (encoded : Option Bytes) (encodedlen : ℕ)
    (type : Argon2Type) (version : UInt32) : Call :=
  match computeTag host t_cost m_cost parallelism pwd salt hashlen type version with
  | .error code => ⟨.error code, hash, encoded⟩
  | .ok out =>
    let context :=
      hashContext t_cost m_cost parallelism pwd salt (List.replicate hashlen 0) version
    let stored := storeEncoded encoded encodedlen
      (encodeString encodedlen { context with out := some out } type)
    ⟨stored.1, hash.map (overwrite out), stored.2⟩

/-- `passe_argon2id_hash_encoded`, the only one of the six hashing calls that the OCaml side
reaches; the others are in `Passe.Argon2Api`. -/
def argon2idHashEncoded (host : Host) (t_cost m_cost parallelism : UInt32) (pwd salt : Bytes)
    (hashlen : ℕ) (encoded : Option Bytes) (encodedlen : ℕ) : Call :=
  argon2Hash host t_cost m_cost parallelism pwd salt none hashlen encoded encodedlen .id
    argon2VersionNumber

/-- `argon2_compare`: zero for equal buffers and minus one otherwise, without a branch on any
byte of them. -/
def argon2Compare (b1 b2 : Bytes) (len : ℕ) : Int32 :=
  let d := (List.range len).foldl (fun d i => d ||| (deref b1 i ^^^ deref b2 i)) (0 : UInt8)
  ((1 : Int32) &&& ((d.toUInt32.toInt32 - 1) >>> 8)) - 1

/-- `passe_argon2_verify_ctx`: the tag is computed again from the decoded context and compared
with the one that was stored. -/
def argon2VerifyCtx (host : Host) (context : Context) (hash : Bytes) (type : Argon2Type) :
    Result Unit := do
  let out ← argon2Ctx host context type
  reject (argon2Compare hash out context.outlen.toNat ≠ 0) .verifyMismatch

/-- The context `passe_argon2_verify` hands to the decoder. It only sets the
password and the two bounds, and the decoder fills in everything else. -/
def verifyContext (encoded pwd : Bytes) : Context :=
  let max_field_len := UInt32.ofNat (strlen encoded)
  { hashContext 0 0 0 pwd [] [] 0 with saltlen := max_field_len, outlen := max_field_len }

/-- `passe_argon2_verify`. The limits on the password and on the text are checked before
anything is allocated, and every later failure keeps its own code. -/
def argon2Verify (host : Host) (encoded pwd : Bytes) (type : Argon2Type) : Result Unit := do
  reject (pwd.length > argon2MaxPwdLength.toNat) .pwdTooLong
  let encoded_len := strlen encoded
  reject (encoded_len > uint32Max) .decodingFail
  reject (host.grants (.saltBuffer encoded_len) = false ∨
    host.grants (.desiredBuffer encoded_len) = false) .memoryAllocationError
  let ctx ← decodeString host.signedChar (verifyContext encoded pwd) encoded type
  let desired_result := ctx.out.getD []
  reject (host.grants (.tagBuffer ctx.outlen.toNat) = false) .memoryAllocationError
  let ctx := { ctx with out := some (List.replicate ctx.outlen.toNat 0) }
  argon2VerifyCtx host ctx desired_result type

/-- `passe_argon2id_verify`, which is all that the OCaml side knows of verification. -/
def argon2idVerify (host : Host) (encoded pwd : Bytes) : Result Unit :=
  argon2Verify host encoded pwd .id

def maxEncodedLen : ℕ := 512

/-- `char encoded[MAX_ENCODED_LEN]` of the stub. C does not initialise it. A call of success fills
it up to a terminator, so nothing that it held before is read. -/
def encodedArray : Bytes := List.replicate maxEncodedLen 0

/-- `passe_argon2id_hash_encoded_with_salt_stub`. Whatever code a failure has, OCaml gets the
empty string; otherwise it gets the text up to the terminator. -/
def argon2idHashEncodedWithSaltStub (host : Host) (t_cost m_cost parallelism : CamlInt)
    (pwd salt : Bytes) : Bytes :=
  let t := uint32OfIntVal t_cost
  let m := uint32OfIntVal m_cost
  let p := uint32OfIntVal parallelism
  let hashlen := 32
  let call := argon2idHashEncoded host t m p pwd salt hashlen (some encodedArray) maxEncodedLen
  match call.rc with
  | .error _ => []
  | .ok () => cString (call.encoded.getD [])

def encodedNul : Exn := .invalidArgument (ascii "argon2: encoded hash contains null bytes")

/-- `passe_argon2id_verify_stub`: the code as an OCaml integer. Only a terminator inside the
stored string raises. -/
def argon2idVerifyStub (host : Host) (encoded pwd : Bytes) : Caml ℤ :=
  if ¬ camlStringIsCSafe encoded then .error encodedNul
  else
    match argon2idVerify host encoded pwd with
    | .ok () => .ok 0
    | .error code => .ok code.toInt

inductive Error
  | invalidTimeCost (s : Bytes)
  | invalidMemoryCost (s : Bytes)
  | invalidParallelism (s : Bytes)
  | invalidSaltLength (n : ℕ)
  | hashFailure (s : Bytes)
  | verifyMismatch
  | invalidHash (s : Bytes)
  deriving DecidableEq, Repr

def ppError : Error → Bytes
  | .invalidTimeCost s => ascii "Invalid time cost: " ++ s
  | .invalidMemoryCost s => ascii "Invalid memory cost: " ++ s
  | .invalidParallelism s => ascii "Invalid parallelism: " ++ s
  | .invalidSaltLength n => ascii "Invalid salt length: " ++ decimal n
  | .hashFailure s => ascii "Hash failure: " ++ s
  | .verifyMismatch => ascii "Verification failed: password mismatch"
  | .invalidHash s => ascii "Invalid hash: " ++ s

structure Params where
  tCost : CamlInt
  mCost : CamlInt
  parallelism : CamlInt

/-- `default_params`: two iterations, 19 MiB and one thread, which `hash` takes when the caller
passes none. -/
def defaultParams : Params where
  tCost := ⟨2, by decide⟩
  mCost := ⟨19456, by decide⟩
  parallelism := ⟨1, by decide⟩

def minTimeCost : ℤ := 1
def maxTimeCost : ℤ := maxInt
def minMemoryCost : ℤ := 8
def maxMemoryCost : ℤ := maxInt
def minParallelism : ℤ := 1
def maxParallelism : ℤ := 16777215
def minSaltLength : ℕ := 8

def validateParams (params : Params) : Except Error Unit :=
  if params.tCost.val < minTimeCost ∨ params.tCost.val > maxTimeCost then
    .error (.invalidTimeCost (sprintfInt 0 params.tCost.val))
  else if params.mCost.val < minMemoryCost ∨ params.mCost.val > maxMemoryCost then
    .error (.invalidMemoryCost (sprintfInt 0 params.mCost.val))
  else if params.parallelism.val < minParallelism ∨ params.parallelism.val > maxParallelism then
    .error (.invalidParallelism (sprintfInt 0 params.parallelism.val))
  else .ok ()

/-- `hash_with_salt`. The salt is checked before the parameters, and the empty answer of the
stub is the only failure it can still report. -/
def hashWithSalt (host : Host) (salt : Bytes) (params : Params) (plain : Bytes) :
    Except Error Bytes :=
  if salt.length < minSaltLength then .error (.invalidSaltLength salt.length)
  else
    match validateParams params with
    | .error e => .error e
    | .ok () =>
      let encoded := argon2idHashEncodedWithSaltStub host params.tCost params.mCost
        params.parallelism plain salt
      if encoded.length = 0 then .error (.hashFailure (ascii "Failed to generate hash"))
      else .ok encoded

/-- `hash`. The sixteen bytes `salt` are what `Crypto.generate` returns, so the generator is a
parameter and not a part of the model. -/
def hash (host : Host) (salt : Bytes) (params : Option Params) (plain : Bytes) :
    Except Error Bytes :=
  let params := params.getD defaultParams
  match validateParams params with
  | .error e => .error e
  | .ok () => hashWithSalt host salt params plain

/-- `verify`. Zero is a match and -35 a mismatch; every other code becomes the error that says
mismatch too. -/
def verify (host : Host) (hash plain : Bytes) : Caml (Except Error Bool) :=
  if hash.length = 0 then .ok (.error (.invalidHash (ascii "Empty hash")))
  else do
    let ret ← argon2idVerifyStub host hash plain
    if ret = 0 then return .ok true
    else if ret = -35 then return .ok false
    else return .error .verifyMismatch

def hashWithSaltExn (host : Host) (salt : Bytes) (params : Params) (plain : Bytes) : Caml Bytes :=
  getExn ppError (.ok (hashWithSalt host salt params plain))

def hashExn (host : Host) (salt : Bytes) (params : Option Params) (plain : Bytes) : Caml Bytes :=
  getExn ppError (.ok (hash host salt params plain))

def verifyExn (host : Host) (hash plain : Bytes) : Caml Bool :=
  getExn ppError (verify host hash plain)

end Passe.Argon2
