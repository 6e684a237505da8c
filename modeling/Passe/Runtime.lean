import Mathlib.Algebra.Ring.Int.Defs
import Mathlib.Algebra.Ring.Nat
import Mathlib.Data.List.GetD
import Mathlib.Data.List.TakeWhile
import Mathlib.Data.Option.Basic
import Mathlib.Tactic.Common

/-!
# The OCaml runtime and C strings

OCaml strings are byte strings. A C function that receives `String_val(s)` sees
the same bytes followed by a terminator, which is what `deref` reads one past
the last byte. OCaml integers have 63 bits, so they carry their range. An OCaml
call either returns or raises; the two standard exceptions below are the only
ones the modelled code can raise.
-/
namespace Passe

abbrev Bytes := List UInt8

/-- The bytes of an ASCII literal of the source, so that texts can be written down as they stand
there. -/
def ascii (s : String) : Bytes := s.toList.map fun c => UInt8.ofNat c.toNat

def ch (c : Char) : UInt8 := UInt8.ofNat c.toNat

inductive Exn
  | invalidArgument (msg : Bytes)
  | failure (msg : Bytes)
  deriving DecidableEq, Repr

/-- The outcome of an OCaml call: `.ok` returns and `.error` raises. A `result` that is returned
is a value of the inner type. -/
abbrev Caml (α : Type) := Except Exn α

/-- What the `_exn` functions make of a result: an error that the plain function returns is raised
as `Invalid_argument`, with the text that `pp` prints for it. -/
def getExn {ε α : Type} (pp : ε → Bytes) (r : Caml (Except ε α)) : Caml α := do
  match ← r with
  | .ok a => return a
  | .error e => throw (.invalidArgument (pp e))

section
variable {ε α β : Type}

@[simp] theorem ok_bind (a : α) (f : α → Except ε β) : Except.ok a >>= f = f a := rfl

@[simp] theorem error_bind (e : ε) (f : α → Except ε β) : Except.error e >>= f = .error e := rfl

@[simp] theorem pure_eq_ok (a : α) : (pure a : Except ε α) = .ok a := rfl

end

@[simp] theorem getExn_ok {ε α : Type} (pp : ε → Bytes) (a : α) : getExn pp (.ok (.ok a)) = .ok a :=
  rfl

@[simp] theorem getExn_error {ε α : Type} (pp : ε → Bytes) (e : ε) :
    getExn pp (.ok (.error e) : Caml (Except ε α)) = .error (.invalidArgument (pp e)) := rfl

/-- Where the plain function returns, its `_exn` form raises nothing else than
`Invalid_argument` with the printed error. -/
theorem invalidArgument_of_getExn {ε α : Type} {pp : ε → Bytes} {result : Except ε α} {exn : Exn}
    (h : getExn pp (.ok result) = .error exn) : ∃ msg, exn = .invalidArgument msg := by
  cases result with
  | ok a => exact absurd h (by simp)
  | error e => exact ⟨pp e, (Except.error.inj h).symm⟩

/-- `goto inval` and `return NULL` are guards of the option monad. -/
theorem guard_bind {α : Type} (p : Prop) [Decidable p] (x : Option α) :
    (guard p >>= fun _ => x) = if p then x else none := by
  by_cases h : p <;> simp [guard, h]

/-- `String.sub s ofs len`, which raises when the substring does not lie within the string. -/
def stringSub (s : Bytes) (ofs len : ℤ) : Caml Bytes :=
  if ofs < 0 ∨ len < 0 ∨ ofs > s.length - len then
    .error (.invalidArgument (ascii "String.sub / Bytes.sub"))
  else .ok ((s.drop ofs.toNat).take len.toNat)

theorem stringSub_of_le {s : Bytes} {ofs len : ℤ} (hofs : 0 ≤ ofs) (hlen : 0 ≤ len)
    (h : ofs + len ≤ s.length) :
    stringSub s ofs len = .ok ((s.drop ofs.toNat).take len.toNat) := by
  unfold stringSub
  rw [if_neg (by omega)]

theorem stringSub_zero_of_lt {s : Bytes} {len : ℤ} (h : s.length < len) :
    stringSub s 0 len = .error (.invalidArgument (ascii "String.sub / Bytes.sub")) := by
  unfold stringSub
  rw [if_pos (by omega)]

/-- `strlen` of a C string: the bytes before the first zero byte. -/
def strlen (s : Bytes) : ℕ := (s.takeWhile (· != 0)).length

/-- What a C function reads from a buffer it gets as a string, and what `caml_copy_string` makes
an OCaml string of: the bytes in front of the terminator. -/
def cString (s : Bytes) : Bytes := s.take (strlen s)

/-- `p[i]` for a pointer to the bytes of `p`, with the zero byte where a string has its
terminator. -/
def deref (p : Bytes) (i : ℕ) : UInt8 := p.getD i 0

@[simp] theorem deref_cons_zero (c : UInt8) (p : Bytes) : deref (c :: p) 0 = c := rfl

@[simp] theorem deref_cons_succ (c : UInt8) (p : Bytes) (i : ℕ) :
    deref (c :: p) (i + 1) = deref p i := rfl

/-- `caml_string_is_c_safe`: no zero byte hides inside the string. -/
def camlStringIsCSafe (s : Bytes) : Bool := strlen s == s.length

/-- A byte read before the terminator is an element of the string. -/
theorem drop_eq_cons_of_deref {p : Bytes} {i : ℕ} {c : UInt8} (h : deref p i = c) (hc : c ≠ 0) :
    p.drop i = c :: p.drop (i + 1) := by
  have hi : i < p.length := by
    by_contra hge
    rw [deref, List.getD_eq_default _ _ (by omega)] at h
    exact hc h.symm
  rw [deref, List.getD_eq_getElem _ _ hi] at h
  rw [List.drop_eq_getElem_cons hi, h]

theorem takeWhile_ne_zero_of_notMem {s : Bytes} (h : 0 ∉ s) : s.takeWhile (· != 0) = s := by
  rw [List.takeWhile_eq_self_iff]
  intro c hc
  exact bne_iff_ne.mpr (ne_of_mem_of_not_mem hc h)

@[simp] theorem strlen_of_notMem {s : Bytes} (h : 0 ∉ s) : strlen s = s.length := by
  rw [strlen, takeWhile_ne_zero_of_notMem h]

@[simp] theorem cString_of_notMem {s : Bytes} (h : 0 ∉ s) : cString s = s := by
  rw [cString, strlen_of_notMem h, List.take_length]

/-- A terminator behind a text ends it, whatever the rest of the buffer holds. -/
@[simp] theorem cString_append_zero {s : Bytes} (h : 0 ∉ s) (rest : Bytes) :
    cString (s ++ 0 :: rest) = s := by
  have hall : ∀ c ∈ s, (c != 0) = true := fun c hc => bne_iff_ne.mpr (ne_of_mem_of_not_mem hc h)
  have hlength : strlen (s ++ 0 :: rest) = s.length := by
    rw [strlen, List.takeWhile_append_of_pos hall]
    simp
  rw [cString, hlength, List.take_left]

@[simp] theorem camlStringIsCSafe_iff (s : Bytes) : camlStringIsCSafe s = true ↔ 0 ∉ s := by
  rw [camlStringIsCSafe, beq_iff_eq]
  constructor
  · intro h hzero
    have hself : s.takeWhile (· != 0) = s := (List.takeWhile_prefix _).eq_of_length h
    have hne := List.takeWhile_eq_self_iff.mp hself 0 hzero
    simp at hne
  · exact strlen_of_notMem

def minInt : ℤ := -2 ^ 62
def maxInt : ℤ := 2 ^ 62 - 1

/-- A native integer of a 64-bit OCaml, which keeps one bit of the word for itself. -/
abbrev CamlInt := {n : ℤ // minInt ≤ n ∧ n ≤ maxInt}

/-- `const uint32_t x = Int_val(v)`: the value passes through a C `int`. -/
def uint32OfIntVal (n : CamlInt) : UInt32 := (Int32.ofInt n.val).toUInt32

/-- Both conversions reduce modulo `2 ^ 32`, so a cost that is too large is cut short in
silence. -/
theorem uint32OfIntVal_toNat (n : CamlInt) : ((uint32OfIntVal n).toNat : ℤ) = n.val % 2 ^ 32 := by
  rw [uint32OfIntVal, ← UInt32.toNat_toBitVec, Int32.toBitVec_toUInt32, Int32.toBitVec_ofInt,
    BitVec.toNat_ofInt]
  omega

/-- A 32-bit value as a native integer. -/
def CamlInt.ofUInt32 (n : UInt32) : CamlInt :=
  ⟨n.toNat, by
    have hn := n.toNat_lt
    unfold minInt maxInt
    omega⟩

@[simp] theorem uint32OfIntVal_ofUInt32 (n : UInt32) :
    uint32OfIntVal (CamlInt.ofUInt32 n) = n := by
  have hn := n.toNat_lt
  have h := uint32OfIntVal_toNat (CamlInt.ofUInt32 n)
  have hval : (CamlInt.ofUInt32 n).val = n.toNat := rfl
  apply UInt32.toNat_inj.mp
  omega

end Passe
