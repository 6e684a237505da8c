import Mathlib.Data.List.Basic
import Mathlib.Data.Prod.Basic
import Mathlib.Tactic.Common

/-!
# Feistel networks and modes of operation

A Feistel network is undone by the network under the reversed keys, whatever its
round function does. The modes are loops over a buffer of blocks that is
overwritten in place: encryption has to go forwards, because a block is masked with
the one just made, and decryption backwards, because a block is masked with one that
must not have been replaced yet.
-/
namespace Passe.BlockCipher

section Feistel
variable {κ β : Type*} {op : β → β → β} {f : κ → β → β}

/-- One round: a half is masked with a function of the other, and the halves change places. The
function need not be invertible. -/
def round (op : β → β → β) (f : κ → β → β) (x : β × β) (k : κ) : β × β := (op x.2 (f k x.1), x.1)

def network (op : β → β → β) (f : κ → β → β) (ks : List κ) (x : β × β) : β × β :=
  ks.foldl (round op f) x

theorem round_swap_round (hop : ∀ a b, op (op a b) b = a) (x : β × β) (k : κ) :
    round op f (round op f x k).swap k = x.swap := by
  simp only [round, Prod.swap_prod_mk, hop]
  rfl

/-- The reversed keys undo the network, up to the order of the halves on the way in and out. -/
theorem network_reverse (hop : ∀ a b, op (op a b) b = a) (ks : List κ) (x : β × β) :
    network op f ks.reverse (network op f ks x).swap = x.swap := by
  induction ks generalizing x with
  | nil => rfl
  | cons k ks ih =>
    have hrest : network op f ks.reverse (network op f ks (round op f x k)).swap =
        (round op f x k).swap := ih (round op f x k)
    rw [List.reverse_cons, network, List.foldl_append]
    exact (congrArg (fun y => round op f y k) hrest).trans (round_swap_round hop x k)

end Feistel

section Modes
variable {β : Type*} {op : β → β → β} {E D : β → β} {iv : β} {x y : ℕ → β}

/-- What block `k` is masked with: the initialisation vector at the start, and the ciphertext
before it everywhere else. -/
def chain (iv : β) (y : ℕ → β) : ℕ → β
  | 0 => iv
  | k + 1 => y k

def cbcEncrypt (op : β → β → β) (E : β → β) (iv : β) (x : ℕ → β) : ℕ → β
  | 0 => E (op (x 0) iv)
  | k + 1 => E (op (x (k + 1)) (cbcEncrypt op E iv x k))

def cbcDecrypt (op : β → β → β) (D : β → β) (iv : β) (y : ℕ → β) (k : ℕ) : β :=
  op (D (y k)) (chain iv y k)

theorem cbcEncrypt_eq (k : ℕ) :
    cbcEncrypt op E iv x k = E (op (x k) (chain iv (cbcEncrypt op E iv x) k)) := by
  cases k <;> rfl

theorem cbcDecrypt_cbcEncrypt (hDE : ∀ b, D (E b) = b) (hop : ∀ a b, op (op a b) b = a) :
    cbcDecrypt op D iv (cbcEncrypt op E iv x) = x := by
  funext k
  rw [cbcDecrypt, cbcEncrypt_eq, hDE, hop]

theorem cbcEncrypt_cbcDecrypt (hED : ∀ b, E (D b) = b) (hop : ∀ a b, op (op a b) b = a) :
    cbcEncrypt op E iv (cbcDecrypt op D iv y) = y := by
  funext k
  induction k with
  | zero => rw [cbcEncrypt, cbcDecrypt, chain, hop, hED]
  | succ k ih => rw [cbcEncrypt, ih, cbcDecrypt, chain, hop, hED]

/-- What the first `n` blocks of a buffer become, the others staying. Every mode writes its
buffer in this shape. -/
def below (n : ℕ) (new old : ℕ → β) (k : ℕ) : β := if k < n then new k else old k

@[simp] theorem below_of_lt {n k : ℕ} (h : k < n) : below n x y k = x k := if_pos h

/-- Every block on its own, so that the order in which the loop takes them does not matter. -/
def ecbInPlace (E : β → β) (n : ℕ) (x : ℕ → β) : ℕ → β :=
  (List.range n).foldl (fun x k => Function.update x k (E (x k))) x

/-- Forwards, each block masked with the one just made: the loop reads behind itself what it has
written. -/
def cbcEncryptInPlace (op : β → β → β) (E : β → β) (iv : β) (n : ℕ) (x : ℕ → β) : ℕ → β :=
  (List.range n).foldl (fun x k => Function.update x k (E (op (x k) (chain iv x k)))) x

/-- Backwards, each block masked with one that is still as it was: the loop reads in front of
itself what it has not yet written. -/
def cbcDecryptInPlace (op : β → β → β) (D : β → β) (iv : β) (n : ℕ) (x : ℕ → β) : ℕ → β :=
  (List.range n).reverse.foldl (fun x k => Function.update x k (op (D (x k)) (chain iv x k))) x

@[simp] theorem update_below (n : ℕ) (x y : ℕ → β) :
    Function.update (below n x y) n (x n) = below (n + 1) x y := by
  funext k
  by_cases hk : k = n
  · subst hk
    rw [Function.update_self, below_of_lt (Nat.lt_succ_self k)]
  · have hlt : k < n + 1 ↔ k < n := by omega
    rw [Function.update_of_ne hk]
    simp only [below, hlt]

theorem ecbInPlace_eq (E : β → β) (n : ℕ) (x : ℕ → β) :
    ecbInPlace E n x = below n (fun k => E (x k)) x := by
  induction n with
  | zero => rfl
  | succ n ih =>
    have hstep : ecbInPlace E (n + 1) x =
        Function.update (ecbInPlace E n x) n (E (ecbInPlace E n x n)) := by
      rw [ecbInPlace, List.range_succ, List.foldl_append]
      rfl
    have hold : below n (fun k => E (x k)) x n = x n := if_neg (Nat.lt_irrefl n)
    rw [hstep, ih, hold, ← update_below n (fun k => E (x k))]

theorem chain_below_of_le {n k : ℕ} (h : k ≤ n) : chain iv (below n x y) k = chain iv x k := by
  cases k with
  | zero => rfl
  | succ k => exact below_of_lt h

/-- The forward loop is CBC encryption. -/
theorem cbcEncryptInPlace_eq (op : β → β → β) (E : β → β) (iv : β) (n : ℕ) (x : ℕ → β) :
    cbcEncryptInPlace op E iv n x = below n (cbcEncrypt op E iv x) x := by
  induction n with
  | zero => rfl
  | succ n ih =>
    have hstep : cbcEncryptInPlace op E iv (n + 1) x =
        Function.update (cbcEncryptInPlace op E iv n x) n
          (E (op (cbcEncryptInPlace op E iv n x n) (chain iv (cbcEncryptInPlace op E iv n x) n))) := by
      rw [cbcEncryptInPlace, List.range_succ, List.foldl_append]
      rfl
    have hold : below n (cbcEncrypt op E iv x) x n = x n := if_neg (Nat.lt_irrefl n)
    have hnew : E (op (x n) (chain iv (cbcEncrypt op E iv x) n)) = cbcEncrypt op E iv x n :=
      (cbcEncrypt_eq n).symm
    rw [hstep, ih, hold, chain_below_of_le (Nat.le_refl n), hnew, update_below]

/-- The backward loop is CBC decryption. -/
theorem cbcDecryptInPlace_eq (op : β → β → β) (D : β → β) (iv : β) (n : ℕ) (y : ℕ → β) :
    cbcDecryptInPlace op D iv n y = below n (cbcDecrypt op D iv y) y := by
  induction n generalizing y with
  | zero => rfl
  | succ n ih =>
    have hstep : cbcDecryptInPlace op D iv (n + 1) y =
        cbcDecryptInPlace op D iv n (Function.update y n (cbcDecrypt op D iv y n)) := by
      rw [cbcDecryptInPlace, List.range_succ, List.reverse_append]
      rfl
    rw [hstep, ih]
    funext k
    by_cases hk : k < n
    · have hne : k ≠ n := Nat.ne_of_lt hk
      have hchain : ∀ b, chain iv (Function.update y n b) k = chain iv y k := by
        intro b
        cases k with
        | zero => rfl
        | succ k => exact Function.update_of_ne (Nat.ne_of_lt (Nat.lt_of_succ_lt hk)) b y
      rw [below_of_lt hk, below_of_lt (Nat.lt_succ_of_lt hk), cbcDecrypt, hchain,
        Function.update_of_ne hne]
      rfl
    · rw [below, if_neg hk]
      by_cases heq : k = n
      · subst heq
        rw [Function.update_self, below_of_lt (Nat.lt_succ_self k)]
      · rw [Function.update_of_ne heq, below, if_neg (by omega)]

@[simp] theorem below_of_not_lt {n k : ℕ} (h : ¬k < n) : below n x y k = y k := if_neg h

theorem cbcDecrypt_below {n k : ℕ} (hk : k < n) :
    cbcDecrypt op D iv (below n y x) k = cbcDecrypt op D iv y k := by
  rw [cbcDecrypt, below_of_lt hk, chain_below_of_le (Nat.le_of_lt hk), cbcDecrypt]

theorem cbcEncrypt_below {n k : ℕ} (hk : k < n) :
    cbcEncrypt op E iv (below n x y) k = cbcEncrypt op E iv x k := by
  induction k with
  | zero => rw [cbcEncrypt, below_of_lt hk, cbcEncrypt]
  | succ k ih => rw [cbcEncrypt, below_of_lt hk, ih (by omega), cbcEncrypt]

theorem ecbInPlace_cancel (hDE : ∀ b, D (E b) = b) (n : ℕ) (x : ℕ → β) :
    ecbInPlace D n (ecbInPlace E n x) = x := by
  funext k
  rw [ecbInPlace_eq, ecbInPlace_eq]
  by_cases hk : k < n
  · rw [below_of_lt hk, below_of_lt hk, hDE]
  · rw [below_of_not_lt hk, below_of_not_lt hk]

/-- The backward loop undoes the forward loop. -/
theorem cbcDecryptInPlace_encryptInPlace (hDE : ∀ b, D (E b) = b)
    (hop : ∀ a b, op (op a b) b = a) (n : ℕ) (x : ℕ → β) :
    cbcDecryptInPlace op D iv n (cbcEncryptInPlace op E iv n x) = x := by
  funext k
  rw [cbcEncryptInPlace_eq, cbcDecryptInPlace_eq]
  by_cases hk : k < n
  · rw [below_of_lt hk, cbcDecrypt_below hk, cbcDecrypt_cbcEncrypt hDE hop]
  · rw [below_of_not_lt hk, below_of_not_lt hk]

theorem cbcEncryptInPlace_decryptInPlace (hED : ∀ b, E (D b) = b)
    (hop : ∀ a b, op (op a b) b = a) (n : ℕ) (y : ℕ → β) :
    cbcEncryptInPlace op E iv n (cbcDecryptInPlace op D iv n y) = y := by
  funext k
  rw [cbcEncryptInPlace_eq, cbcDecryptInPlace_eq]
  by_cases hk : k < n
  · rw [below_of_lt hk, cbcEncrypt_below hk, cbcEncrypt_cbcDecrypt hED hop]
  · rw [below_of_not_lt hk, below_of_not_lt hk]

end Modes

end Passe.BlockCipher
