import Passe.BcryptHashpass
import Passe.Crypto

/-!
# The OCaml interface to bcrypt

`bcrypt_stub.c` and `bcrypt.ml`. Every function returns in the exception monad
of the runtime: a result of type `Except Error α` is what the OCaml code returns,
and an exception is what escapes to the caller. Two things come from outside: the
answer of `malloc` in the base64 stub and the bytes of the random generator.
-/
namespace Passe.Bcrypt
open Decimal

inductive Variant
  | A
  | Y
  | B
  deriving DecidableEq, Repr

namespace Variant

/-- `Variant.to_string`, which prints through `pp`. It gives the two characters of a header
without the dollar signs, which the callers put around them. -/
def toString : Variant → Bytes
  | A => ascii "2a"
  | Y => ascii "2y"
  | B => ascii "2b"

/-- `Variant.of_raw_string`: the revision that a header of four bytes names, if it names one. -/
def ofRawString (s : Bytes) : Option Variant :=
  if s = ascii "$2a$" then some A
  else if s = ascii "$2y$" then some Y
  else if s = ascii "$2b$" then some B
  else none

end Variant

/-- The polymorphic variant `error` of `bcrypt.ml`: everything a function of the module may
return instead of a result. An exception is not among them. -/
inductive Error
  | truncated (n : ℕ)
  | invalidCost (s : Bytes)
  | invalidPrefix (s : Bytes)
  | invalidHash (s : Bytes)
  | saltGenerationFailure
  | hashFailure
  | invalidSaltLength (n : ℕ)
  deriving DecidableEq, Repr

/-- `pp_error`, which the `_exn` functions print into the exception they raise. -/
def ppError : Error → Bytes
  | .truncated n =>
    ascii "Password truncated to " ++ Decimal.decimal n ++ ascii " characters"
  | .invalidCost s => ascii "Invalid cost: " ++ s
  | .invalidPrefix s => ascii "Invalid prefix: " ++ s
  | .invalidHash s => ascii "Invalid hash: " ++ s
  | .saltGenerationFailure => ascii "Salt generation failure"
  | .hashFailure => ascii "Hash generation failure"
  | .invalidSaltLength n => ascii "Invalid salt length: " ++ Decimal.decimal n

def minCost : ℤ := 4
def maxCost : ℤ := 31
def defaultCost : ℤ := 12

def passwordNul : Exn := .invalidArgument (ascii "bcrypt: password contains null bytes")
def saltNul : Exn := .invalidArgument (ascii "bcrypt: salt contains null bytes")
def hashpassFailed : Exn := .failure (ascii "bcrypt_hashpass failed")
def allocationFailed : Exn := .failure (ascii "Memory allocation failed")

/-- `passe_bcrypt_hashpass_stub`: what OCaml sees of the C function. A refusal of the core is an
exception here and never an empty string. -/
def bcryptHashStub (key salt : Bytes) : Caml Bytes :=
  if ¬ camlStringIsCSafe key then .error passwordNul
  else if ¬ camlStringIsCSafe salt then .error saltNul
  else
    match bcryptHashpass key salt bcryptHashSpace with
    | none => .error hashpassFailed
    | some encrypted => .ok (cString encrypted)

/-- Everything `passe_encode_base64` writes to its buffer: the characters and the terminator.
The encoder is not told how large the buffer is. -/
def base64Written (data : Bytes) : Bytes := encodeBase64 data ++ [0]

/-- The size of the buffer that the stub asks `malloc` for when it is given `src_len` bytes. -/
def destLen (src_len : ℕ) : ℕ := 4 * ((src_len + 2) / 3) + 1

/-- `passe_encode_base64_stub`. The encoder itself never fails, so its check of the return code
has no branch here. -/
def bcryptBase64Encode (malloc : ℕ → Bool) (src : Bytes) : Caml Bytes :=
  if malloc (destLen src.length) = false then .error allocationFailed
  else
    let dest := base64Written src
    .ok (cString dest)

/-- `_hash_password`: the only place where the length of a password is looked at. It returns an
error and raises nothing of its own. -/
def hashPassword (salt pswd : Bytes) : Caml (Except Error Bytes) :=
  if pswd.length > 72 then .ok (.error (.truncated 72))
  else do
    let hash ← bcryptHashStub pswd salt
    return .ok hash

/-- `is_salt_valid`. It knows a salt by its revision and its length alone, and `String.sub`
raises on a salt shorter than four bytes. -/
def isSaltValid (salt : Bytes) : Caml Bool := do
  let revision ← stringSub salt 0 4
  match Variant.ofRawString revision with
  | some _ => return decide (salt.length = 29)
  | none => return decide (salt.length = 22)

/-- The local `variant` of `hash_with_salt`: a bare salt counts as revision `b`. -/
def saltVariant (salt : Bytes) : Caml (Option Variant) :=
  if salt.length = 22 then .ok (some .B)
  else do
    let revision ← stringSub salt 0 4
    return Variant.ofRawString revision

/-- The local `variant_and_salt`: revision `y` is rewritten to `b` for the C code. -/
def variantAndSalt (salt : Bytes) : Caml (Option (Variant × Bytes)) := do
  match ← saltVariant salt with
  | some .Y =>
    let rest ← stringSub salt 4 25
    return some (.B, ascii "$2b$" ++ rest)
  | some variant => return some (variant, salt)
  | none => return none

/-- The hash that is handed out carries the revision of `variant`, whatever the four bytes were
that the C code put in front of it. -/
def retag (variant : Variant) (hash : Bytes) : Caml (Except Error Bytes) :=
  if hash.length = 0 then .ok (.error .hashFailure)
  else do
    let rest ← stringSub hash 4 (hash.length - 4)
    return .ok (ascii "$" ++ variant.toString ++ ascii "$" ++ rest)

/-- `hash_with_salt`, which `hash` calls with a salt of its own making and `verify` with the
front of a stored hash. -/
def hashWithSalt (salt plain : Bytes) : Caml (Except Error Bytes) := do
  if ¬ (← isSaltValid salt) then return .error (.invalidSaltLength salt.length)
  else
    match ← variantAndSalt salt with
    | some (variant, normalizedSalt) =>
      match ← hashPassword normalizedSalt plain with
      | .ok hash => retag variant hash
      | .error e => return .error e
    | none => return .error (.invalidPrefix salt)

/-- `verify`: hash the password again under the salt that the stored string starts with, and
compare the two texts. -/
def verify (hash plain : Bytes) : Caml (Except Error Bool) :=
  if hash.length ≠ 60 then .ok (.error (.invalidHash hash))
  else do
    let revision ← stringSub hash 0 4
    match Variant.ofRawString revision with
    | none => return .error (.invalidPrefix hash)
    | some _ =>
      let hash_salt ← stringSub hash 0 29
      if hash_salt.length ≠ 29 then return .error (.invalidHash hash)
      else
        match ← hashWithSalt hash_salt plain with
        | .error e => return .error e
        | .ok computed_hash => return .ok (Crypto.constantTimeEqual computed_hash hash)

/-- `generate_salt`. The answers of `malloc` and of the random generator are parameters, since
both come from outside the library. -/
def generateSalt (malloc : ℕ → Bool) (generate : ℕ → Bytes) (cost : ℤ) (variant : Variant) :
    Caml (Except Error Bytes) := do
  let cost_str := sprintfInt 2 cost
  let salt_bytes := generate 16
  let salt_b64 ← bcryptBase64Encode malloc salt_bytes
  if salt_b64.length = 0 then return .error .saltGenerationFailure
  else
    return .ok (ascii "$" ++ variant.toString ++ ascii "$" ++ cost_str ++ ascii "$" ++ salt_b64)

/-- `hash`, whose optional argument falls back on `default_cost`. Only here is the cost checked
before it reaches C. -/
def hash (malloc : ℕ → Bool) (generate : ℕ → Bytes) (cost : Option CamlInt) (plain : Bytes) :
    Caml (Except Error Bytes) :=
  let cost := (cost.map Subtype.val).getD defaultCost
  if cost < minCost ∨ cost > maxCost then .ok (.error (.invalidCost (sprintfInt 0 cost)))
  else do
    match ← generateSalt malloc generate cost .B with
    | .error e => return .error e
    | .ok salt => hashWithSalt salt plain

def hashWithSaltExn (salt plain : Bytes) : Caml Bytes := getExn ppError (hashWithSalt salt plain)

def hashExn (malloc : ℕ → Bool) (generate : ℕ → Bytes) (cost : Option CamlInt) (plain : Bytes) :
    Caml Bytes :=
  getExn ppError (hash malloc generate cost plain)

def verifyExn (hash plain : Bytes) : Caml Bool := getExn ppError (verify hash plain)

end Passe.Bcrypt
