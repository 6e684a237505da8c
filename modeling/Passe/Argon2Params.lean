import Passe.Argon2RoundTrip

/-!
# The costs a caller asks for

The OCaml side checks the costs against `max_int`, the stub reduces them modulo
`2 ^ 32`, and the C side checks what is left, together with a rule of its own
about memory and lanes. Below `2 ^ 32` the reduction is the identity; this module
says exactly when the written costs are the requested ones and when the two
validators agree.
-/
namespace Passe.Argon2
open Decimal

section Fields

/-- Read a label and the numeral behind it, as a reader of the text would who trusts it. -/
def numeralAfter (label text : Bytes) : Option (ℕ × Bytes) :=
  if label.isPrefixOf text then
    let text := text.drop label.length
    some (value (text.takeWhile isDigit), text.dropWhile isDigit)
  else none

/-- The numbers behind `m=`, `t=` and `p=` in an encoded hash: what the text claims about its
own costs. -/
def costFields (text : Bytes) : Option (ℕ × ℕ × ℕ) := do
  let (_, text) ← numeralAfter (ascii "$argon2id$v=") text
  let (m, text) ← numeralAfter (ascii "$m=") text
  let (t, text) ← numeralAfter (ascii ",t=") text
  let (p, _) ← numeralAfter (ascii ",p=") text
  return (m, t, p)

theorem numeralAfter_append (label : Bytes) (n : ℕ) {rest : Bytes}
    (hrest : ∀ c, rest.head? = some c → isDigit c = false) :
    numeralAfter label (label ++ (decimal n ++ rest)) = some (n, rest) := by
  rw [numeralAfter, if_pos (List.isPrefixOf_iff_prefix.mpr (List.prefix_append _ _)),
    List.drop_left]
  simp only [takeWhile_decimal_append n hrest, dropWhile_decimal_append n hrest, value_decimal]

@[simp] theorem costFields_encoded (context : Context) :
    costFields (encoded context .id) =
      some (context.mCost.toNat, context.tCost.toNat, context.lanes.toNat) := by
  have htext : ∃ rest, encoded context .id =
      ascii "$argon2id$v=" ++ (decimal context.version.toNat ++ (ascii "$m=" ++
        (decimal context.mCost.toNat ++ (ascii ",t=" ++ (decimal context.tCost.toNat ++
        (ascii ",p=" ++ (decimal context.lanes.toNat ++ (ascii "$" ++ rest)))))))) :=
    ⟨_, by simp only [encoded, pieces, List.flatten_cons, List.flatten_nil]; rfl⟩
  obtain ⟨rest, htext⟩ := htext
  have hversion : ∀ rest, numeralAfter (ascii "$argon2id$v=") (ascii "$argon2id$v=" ++
      (decimal context.version.toNat ++ (ascii "$m=" ++ rest))) =
        some (context.version.toNat, ascii "$m=" ++ rest) := fun rest =>
    numeralAfter_append _ _ (isDigit_head_append rfl rfl rest)
  have hm : ∀ rest, numeralAfter (ascii "$m=") (ascii "$m=" ++
      (decimal context.mCost.toNat ++ (ascii ",t=" ++ rest))) =
        some (context.mCost.toNat, ascii ",t=" ++ rest) := fun rest =>
    numeralAfter_append _ _ (isDigit_head_append rfl rfl rest)
  have ht : ∀ rest, numeralAfter (ascii ",t=") (ascii ",t=" ++
      (decimal context.tCost.toNat ++ (ascii ",p=" ++ rest))) =
        some (context.tCost.toNat, ascii ",p=" ++ rest) := fun rest =>
    numeralAfter_append _ _ (isDigit_head_append rfl rfl rest)
  have hp : ∀ rest, numeralAfter (ascii ",p=") (ascii ",p=" ++
      (decimal context.lanes.toNat ++ (ascii "$" ++ rest))) =
        some (context.lanes.toNat, ascii "$" ++ rest) := fun rest =>
    numeralAfter_append _ _ (isDigit_head_append rfl rfl rest)
  rw [htext, costFields]
  simp [hversion, hm, ht, hp]

end Fields

section Fidelity
variable {params : Params} {salt pwd : Bytes}

/-- What `validate_params` lets through. The upper bounds on time and memory are those of the
integer type, so they refuse nothing. -/
theorem validateParams_eq_ok_iff :
    validateParams params = .ok () ↔ 1 ≤ params.tCost.val ∧ 8 ≤ params.mCost.val ∧
      1 ≤ params.parallelism.val ∧ params.parallelism.val ≤ 16777215 := by
  have ht := params.tCost.property.2
  have hm := params.mCost.property.2
  rw [validateParams, minTimeCost, maxTimeCost, minMemoryCost, maxMemoryCost, minParallelism,
    maxParallelism]
  by_cases htime : params.tCost.val < 1 ∨ params.tCost.val > maxInt
  · rw [if_pos htime]
    exact ⟨fun h => absurd h (by simp), fun h => absurd h (by omega)⟩
  rw [if_neg htime]
  by_cases hmemory : params.mCost.val < 8 ∨ params.mCost.val > maxInt
  · rw [if_pos hmemory]
    exact ⟨fun h => absurd h (by simp), fun h => absurd h (by omega)⟩
  rw [if_neg hmemory]
  by_cases hlanes : params.parallelism.val < 1 ∨ params.parallelism.val > 16777215
  · rw [if_pos hlanes]
    exact ⟨fun h => absurd h (by simp), fun h => absurd h (by omega)⟩
  rw [if_neg hlanes]
  exact ⟨fun _ => by omega, fun _ => rfl⟩

/-- Every hash of the call shows the three costs it was asked for. -/
def CostsFaithful (params : Params) (salt pwd : Bytes) : Prop :=
  ∀ host h, hashWithSalt host salt params pwd = .ok h →
    ∃ m t p : ℕ, costFields h = some (m, t, p) ∧ (m : ℤ) = params.mCost.val ∧
      (t : ℤ) = params.tCost.val ∧ (p : ℤ) = params.parallelism.val

theorem costFields_storedContext (params : Params) (salt pwd : Bytes) :
    costFields (encoded (storedContext params salt pwd) .id) =
      some ((uint32OfIntVal params.mCost).toNat, (uint32OfIntVal params.tCost).toNat,
        (uint32OfIntVal params.parallelism).toNat) :=
  costFields_encoded (storedContext params salt pwd)

/-- The reduction modulo `2 ^ 32` shows in the hash of exactly the accepted calls
with a larger time or memory cost. -/
theorem costsFaithful_iff :
    CostsFaithful params salt pwd ↔
      (params.tCost.val < 2 ^ 32 ∧ params.mCost.val < 2 ^ 32) ∨ ¬ Accepted params salt pwd := by
  have ht := uint32OfIntVal_toNat params.tCost
  have hm := uint32OfIntVal_toNat params.mCost
  have hp := uint32OfIntVal_toNat params.parallelism
  constructor
  · intro hfaithful
    by_contra hnot
    rw [not_or, not_not] at hnot
    obtain ⟨hlarge, haccepted⟩ := hnot
    obtain ⟨m, t, p, hfields, hmeq, hteq, -⟩ := hfaithful ⟨true, fun _ => true⟩ _
      (hashWithSalt_of_accepted (fun _ => rfl) haccepted)
    rw [costFields_storedContext] at hfields
    simp only [Option.some.injEq, Prod.mk.injEq] at hfields
    omega
  · rintro (⟨htsmall, hmsmall⟩ | hrejected) host h hok
    · obtain ⟨haccepted, rfl⟩ := hashWithSalt_eq_ok hok
      obtain ⟨ht1, hm8, hp1, hpmax⟩ := validateParams_eq_ok_iff.mp haccepted.params_ok
      exact ⟨_, _, _, costFields_storedContext params salt pwd, by omega, by omega, by omega⟩
    · exact absurd (hashWithSalt_eq_ok hok).1 hrejected

/-- A memory cost just above 32 bits, with the defaults for the other two. -/
def largeMemory : Params := { defaultParams with mCost := ⟨2 ^ 32 + 8, by decide⟩ }

/-- It is hashed as a memory cost of eight, the least there is, and the text says so. -/
theorem not_costsFaithful_largeMemory :
    (∃ h, hashWithSalt ⟨true, fun _ => true⟩ (ascii "saltsalt") largeMemory (ascii "password") =
      .ok h ∧ costFields h = some (8, 2, 1)) ∧
    ¬ CostsFaithful largeMemory (ascii "saltsalt") (ascii "password") := by
  have haccepted : Accepted largeMemory (ascii "saltsalt") (ascii "password") :=
    accepted_of_inputs_ok rfl (by decide) (by decide) (by decide) rfl
  have hok : hashWithSalt ⟨true, fun _ => true⟩ (ascii "saltsalt") largeMemory
      (ascii "password") = .ok _ := hashWithSalt_of_accepted (fun _ => rfl) haccepted
  have hfields : costFields (encoded (storedContext largeMemory (ascii "saltsalt")
      (ascii "password")) .id) = some (8, 2, 1) := costFields_storedContext ..
  refine ⟨⟨_, hok, hfields⟩, fun hfaithful => ?_⟩
  obtain ⟨m, t, p, hshown, hm, -⟩ := hfaithful _ _ hok
  rw [hfields] at hshown
  obtain rfl := (Prod.mk.inj (Option.some.inj hshown)).1
  exact absurd hm (by decide)

end Fidelity

section Agreement
variable {params : Params} {salt pwd : Bytes}

/-- The range of the costs that Argon2 is defined for: 32 bits each, and eight blocks of memory
for every lane. -/
structure InRange (params : Params) : Prop where
  tCost : 1 ≤ params.tCost.val ∧ params.tCost.val < 2 ^ 32
  mCost : 8 ≤ params.mCost.val ∧ params.mCost.val < 2 ^ 32
  parallelism : 1 ≤ params.parallelism.val ∧ params.parallelism.val ≤ 16777215
  mCost_ge_lanes : 8 * params.parallelism.val ≤ params.mCost.val

/-- The three errors that name a parameter, which a caller can act upon. -/
def ReportsParameter {α : Type} (r : Except Error α) : Prop :=
  ∃ s, r = .error (.invalidTimeCost s) ∨ r = .error (.invalidMemoryCost s) ∨
    r = .error (.invalidParallelism s)

/-- The two validators accept the same parameters, and a parameter out of range is
reported as such, by both functions and never as a failure of the hash. -/
structure ValidatorsAgree (params : Params) (salt pwd : Bytes) : Prop where
  inputs_ok : validateParams params = .ok () → validateInputs (stubContext params salt pwd) = .ok ()
  reported : ¬ InRange params → ∀ host, ReportsParameter (hashWithSalt host salt params pwd) ∧
    ∀ salt', salt'.length = 16 → ReportsParameter (hash host salt' (some params) pwd)
  hashFailure : ∀ host s, hashWithSalt host salt params pwd = .error (.hashFailure s) →
    InRange params ∧ validateInputs (stubContext params salt pwd) = .ok ()
  hash_hashFailure : ∀ host salt' s, salt'.length = 16 →
    hash host salt' (some params) pwd = .error (.hashFailure s) →
      InRange params ∧ validateInputs (stubContext params salt' pwd) = .ok ()

/-- The costs are the only part of the context that can be refused. -/
theorem stubContext_valid_iff (hmin : 8 ≤ salt.length) (hsalt : salt.length ≤ uint32Max) :
    (stubContext params salt pwd).Valid ↔
      1 ≤ (uint32OfIntVal params.tCost).toNat ∧ 8 ≤ (uint32OfIntVal params.mCost).toNat ∧
        8 * (uint32OfIntVal params.parallelism).toNat ≤ (uint32OfIntVal params.mCost).toNat ∧
        1 ≤ (uint32OfIntVal params.parallelism).toNat ∧
        (uint32OfIntVal params.parallelism).toNat ≤ 0xFFFFFF := by
  rw [stubContext, inputContext, hashContext_valid_iff hsalt (by decide), List.length_replicate]
  exact ⟨fun h => h.2.2, fun h => ⟨by decide, hmin, h⟩⟩

/-- What the validator of the OCaml side leaves to the C side. -/
theorem validateInputs_of_validateParams (hparams : validateParams params = .ok ())
    (hmin : 8 ≤ salt.length) (hsalt : salt.length ≤ uint32Max) :
    validateInputs (stubContext params salt pwd) = .ok () ↔
      1 ≤ params.tCost.val % 2 ^ 32 ∧ 8 ≤ params.mCost.val % 2 ^ 32 ∧
        8 * params.parallelism.val ≤ params.mCost.val % 2 ^ 32 := by
  obtain ⟨-, -, hp1, hpmax⟩ := validateParams_eq_ok_iff.mp hparams
  have ht := uint32OfIntVal_toNat params.tCost
  have hm := uint32OfIntVal_toNat params.mCost
  have hp := uint32OfIntVal_toNat params.parallelism
  rw [validateInputs_eq_ok_iff, stubContext_valid_iff hmin hsalt]
  omega

/-- An error of `validate_params` names the parameter it is about, and there are no other errors
in it. -/
theorem validateParams_error {e : Error} (h : validateParams params = .error e) :
    ∃ s, e = .invalidTimeCost s ∨ e = .invalidMemoryCost s ∨ e = .invalidParallelism s := by
  unfold validateParams at h
  split at h
  · exact ⟨_, .inl (Except.error.inj h).symm⟩
  split at h
  · exact ⟨_, .inr (.inl (Except.error.inj h).symm)⟩
  split at h
  · exact ⟨_, .inr (.inr (Except.error.inj h).symm)⟩
  · exact absurd h (by simp)

theorem reportsParameter_of_validateParams {e : Error} (h : validateParams params = .error e) :
    ReportsParameter (.error e : Except Error Bytes) := by
  obtain ⟨s, hs⟩ := validateParams_error h
  exact ⟨s, by simpa using hs⟩

theorem hashWithSalt_of_invalid {host : Host} {e : Error} (hmin : minSaltLength ≤ salt.length)
    (h : validateParams params = .error e) : hashWithSalt host salt params pwd = .error e := by
  unfold hashWithSalt
  rw [if_neg (Nat.not_lt.mpr hmin), h]

theorem hash_of_invalid {host : Host} {e : Error} (h : validateParams params = .error e) :
    hash host salt (some params) pwd = .error e := by
  rw [hash, Option.getD_some, h]

/-- Once the parameters have passed, no error names one: what the C side refuses is a failure to
hash. -/
theorem hashWithSalt_error {host : Host} {e : Error} (hmin : minSaltLength ≤ salt.length)
    (hparams : validateParams params = .ok ()) (h : hashWithSalt host salt params pwd = .error e) :
    e = .hashFailure (ascii "Failed to generate hash") := by
  unfold hashWithSalt at h
  rw [if_neg (Nat.not_lt.mpr hmin), hparams] at h
  dsimp only at h
  split at h
  · exact (Except.error.inj h).symm
  · exact absurd h (by simp)

theorem not_reportsParameter (host : Host) (hmin : minSaltLength ≤ salt.length)
    (hparams : validateParams params = .ok ()) :
    ¬ ReportsParameter (hashWithSalt host salt params pwd) := by
  rintro ⟨s, hs | hs | hs⟩ <;> simpa using hashWithSalt_error hmin hparams hs

/-- What only the C side refuses comes back as a failed hash. -/
theorem hashWithSalt_of_not_accepted (host : Host) (hmin : minSaltLength ≤ salt.length)
    (hparams : validateParams params = .ok ()) (hrefused : ¬ Accepted params salt pwd) :
    hashWithSalt host salt params pwd =
      .error (.hashFailure (ascii "Failed to generate hash")) := by
  cases h : hashWithSalt host salt params pwd with
  | ok text => exact absurd (hashWithSalt_eq_ok h).1 hrefused
  | error e => rw [hashWithSalt_error hmin hparams h]

/-- A rejection by the OCaml side is passed on by both functions. -/
theorem validatorsAgree_of_rejected {e : Error} (hmin : minSaltLength ≤ salt.length)
    (hparams : validateParams params = .error e) : ValidatorsAgree params salt pwd := by
  have hwith : ∀ host, hashWithSalt host salt params pwd = .error e := fun host =>
    hashWithSalt_of_invalid hmin hparams
  have hhash : ∀ host salt', hash host salt' (some params) pwd = .error e := fun host salt' =>
    hash_of_invalid hparams
  have hreport := reportsParameter_of_validateParams hparams
  obtain ⟨s, hs⟩ := validateParams_error hparams
  have hfailure : ∀ s', (.error e : Except Error Bytes) ≠ .error (.hashFailure s') := by
    intro s' heq
    obtain rfl := Except.error.inj heq
    simp at hs
  constructor
  · intro h
    exact absurd (hparams.symm.trans h) (by simp)
  · intro _ host
    rw [hwith host]
    refine ⟨hreport, fun salt' _ => ?_⟩
    rw [hhash host salt']
    exact hreport
  · intro host s' h
    exact absurd ((hwith host).symm.trans h) (hfailure s')
  · intro host salt' s' _ h
    exact absurd ((hhash host salt').symm.trans h) (hfailure s')

/-- In range nothing is left for the C side to refuse, and none of the costs is changed on the
way to it. -/
theorem validatorsAgree_of_inRange (hmin : 8 ≤ salt.length) (hsalt : salt.length ≤ uint32Max)
    (hrange : InRange params) : ValidatorsAgree params salt pwd := by
  obtain ⟨ht1, htlt⟩ := hrange.tCost
  obtain ⟨hm8, hmlt⟩ := hrange.mCost
  obtain ⟨hp1, hpmax⟩ := hrange.parallelism
  have hml := hrange.mCost_ge_lanes
  have hparams := validateParams_eq_ok_iff.mpr ⟨ht1, hm8, hp1, hpmax⟩
  have hinputs : ∀ salt' : Bytes, 8 ≤ salt'.length → salt'.length ≤ uint32Max →
      validateInputs (stubContext params salt' pwd) = .ok () := fun salt' hmin' hsalt' =>
    (validateInputs_of_validateParams hparams hmin' hsalt').mpr (by omega)
  constructor
  · intro _
    exact hinputs salt hmin hsalt
  · intro hout
    exact absurd hrange hout
  · intro _ _ _
    exact ⟨hrange, hinputs salt hmin hsalt⟩
  · intro _ salt' _ hlength _
    exact ⟨hrange, hinputs salt' (by omega) (by rw [hlength]; decide)⟩

/-- A parameter out of range that has passed the first validator is not reported. -/
theorem ValidatorsAgree.inRange (hagree : ValidatorsAgree params salt pwd)
    (hmin : minSaltLength ≤ salt.length) (hparams : validateParams params = .ok ()) :
    InRange params := by
  by_contra hout
  exact not_reportsParameter ⟨true, fun _ => true⟩ hmin hparams (hagree.reported hout _).1

/-- The validators agree where the OCaml side rejects, and otherwise on the costs
below `2 ^ 32` with enough memory for their lanes. -/
theorem validatorsAgree_iff (hmin : 8 ≤ salt.length) (hsalt : salt.length ≤ uint32Max) :
    ((validateParams params = .ok () →
        validateInputs (stubContext params salt pwd) = .ok ()) ↔
      (validateParams params ≠ .ok () ∨ (1 ≤ params.tCost.val % 2 ^ 32 ∧
        8 ≤ params.mCost.val % 2 ^ 32 ∧
        8 * params.parallelism.val ≤ params.mCost.val % 2 ^ 32))) ∧
    (ValidatorsAgree params salt pwd ↔
      (validateParams params ≠ .ok () ∨ (params.tCost.val < 2 ^ 32 ∧ params.mCost.val < 2 ^ 32 ∧
        8 * params.parallelism.val ≤ params.mCost.val))) := by
  cases hparams : validateParams params with
  | error e =>
    have hne : (.error e : Except Error Unit) ≠ .ok () := by simp
    exact ⟨iff_of_true (fun h => absurd h hne) (.inl hne),
      iff_of_true (validatorsAgree_of_rejected hmin hparams) (.inl hne)⟩
  | ok u =>
    obtain ⟨ht1, hm8, hp1, hpmax⟩ := validateParams_eq_ok_iff.mp hparams
    constructor
    · rw [validateInputs_of_validateParams hparams hmin hsalt]
      simp
    constructor
    · intro hagree
      have hrange := hagree.inRange hmin hparams
      exact .inr ⟨hrange.tCost.2, hrange.mCost.2, hrange.mCost_ge_lanes⟩
    · rintro (h | ⟨htlt, hmlt, hml⟩)
      · exact absurd rfl h
      · exact validatorsAgree_of_inRange hmin hsalt ⟨⟨ht1, htlt⟩, ⟨hm8, hmlt⟩, ⟨hp1, hpmax⟩, hml⟩

theorem validatorsAgree_defaultParams :
    ValidatorsAgree defaultParams (ascii "saltsalt") (ascii "password") :=
  (validatorsAgree_iff (by decide) (by decide)).2.mpr (.inr (by decide))

/-- Four lanes in the least memory, which is enough for one of them. -/
def fourLanes : Params :=
  { defaultParams with mCost := ⟨8, by decide⟩, parallelism := ⟨4, by decide⟩ }

/-- They pass the first validator and not the second, and the caller is told that
the hash has failed. -/
theorem not_validatorsAgree_fourLanes :
    validateParams fourLanes = .ok () ∧
    validateInputs (stubContext fourLanes (ascii "saltsalt") (ascii "password")) =
      .error .memoryTooLittle ∧
    (∀ host, hashWithSalt host (ascii "saltsalt") fourLanes (ascii "password") =
      .error (.hashFailure (ascii "Failed to generate hash"))) ∧
    ¬ ValidatorsAgree fourLanes (ascii "saltsalt") (ascii "password") := by
  have hparams : validateParams fourLanes = .ok () := rfl
  have herror : validateInputs (stubContext fourLanes (ascii "saltsalt") (ascii "password")) =
      .error .memoryTooLittle := rfl
  have hrefused : validateInputs (stubContext fourLanes (ascii "saltsalt") (ascii "password")) ≠
      .ok () := by
    rw [herror]
    simp
  exact ⟨hparams, herror, fun host => hashWithSalt_of_not_accepted host (by decide) hparams
    fun h => hrefused h.inputs_ok, fun h => hrefused (h.inputs_ok hparams)⟩

end Agreement

end Passe.Argon2
