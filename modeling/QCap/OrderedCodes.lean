import Mathlib.Data.List.Lex
import Mathlib.Data.String.Basic
import Mathlib.Order.Monotone.Basic

/-!
# Codes that keep the order

A code writes each letter as a list of digits. Where the codes of two letters first differ at a
digit that both have, and there in the order of the letters, coded words are ordered
lexicographically as the words are. UTF-8 is such a code.
-/
namespace OrderedCodes

variable {α β : Type*} [LinearOrder α] [LinearOrder β]

/-- The first difference is a digit of both, and the smaller one is on the left. -/
def Before (x y : List β) : Prop :=
  ∃ common a b s t, x = common ++ a :: s ∧ y = common ++ b :: t ∧ a < b

theorem Before.head {a b : β} (h : a < b) (s t : List β) : Before (a :: s) (b :: t) :=
  ⟨[], a, b, s, t, rfl, rfl, h⟩

theorem Before.cons {x y : List β} (h : Before x y) (d : β) : Before (d :: x) (d :: y) := by
  obtain ⟨common, a, b, s, t, rfl, rfl, hab⟩ := h
  exact ⟨d :: common, a, b, s, t, rfl, rfl, hab⟩

theorem Before.append_lt {x y : List β} (h : Before x y) (u v : List β) : x ++ u < y ++ v := by
  obtain ⟨common, a, b, s, t, rfl, rfl, hab⟩ := h
  rw [List.append_assoc, List.append_assoc]
  apply List.append_left_lt
  exact List.cons_lt_cons_iff.mpr (Or.inl hab)

structure Ordered (code : α → List β) : Prop where
  nonempty : ∀ a, code a ≠ []
  before : ∀ a b, a < b → Before (code a) (code b)

theorem Ordered.flatMap_strictMono {code : α → List β} (hc : Ordered code) :
    StrictMono fun word : List α => word.flatMap code := by
  intro x y
  induction x generalizing y with
  | nil =>
    intro h
    cases y with
    | nil => exact absurd h (lt_irrefl _)
    | cons b y =>
      obtain ⟨d, rest, hd⟩ := List.exists_cons_of_ne_nil (hc.nonempty b)
      simp only [List.flatMap_nil, List.flatMap_cons, hd, List.cons_append]
      exact List.nil_lt_cons _ _
  | cons a x ih =>
    intro h
    cases y with
    | nil => exact absurd h (List.not_lt_nil _)
    | cons b y =>
      simp only [List.flatMap_cons]
      rcases List.cons_lt_cons_iff.mp h with hab | ⟨rfl, hxy⟩
      · exact (hc.before a b hab).append_lt _ _
      · exact List.append_left_lt (ih hxy)

theorem map_strictMono {f : α → β} (hf : StrictMono f) : StrictMono (List.map f) := by
  intro x y h
  exact List.map_lt (fun _ _ hab => hf hab) h

def charDigits (c : Char) : List ℕ := (String.utf8EncodeChar c).map UInt8.toNat

def digitsOf (n : ℕ) : List ℕ :=
  if n ≤ 127 then [n]
  else if n ≤ 2047 then [n / 64 + 192, n % 64 + 128]
  else if n ≤ 65535 then [n / 4096 + 224, n / 64 % 64 + 128, n % 64 + 128]
  else [n / 262144 + 240, n / 4096 % 64 + 128, n / 64 % 64 + 128, n % 64 + 128]

theorem charDigits_eq (c : Char) : charDigits c = digitsOf c.toNat := by
  have hlt : c.toNat < 1114112 := by
    rcases c.valid with h | ⟨-, h⟩ <;> rw [Char.toNat] <;> omega
  rw [charDigits, digitsOf, String.utf8EncodeChar]
  change List.map UInt8.toNat (if c.toNat ≤ 127 then _ else if c.toNat ≤ 2047 then _
    else if c.toNat ≤ 65535 then _ else _) = _
  generalize hn : c.toNat = n at hlt
  split
  · simp; omega
  · split
    · simp; omega
    · split
      · simp; omega
      · simp; omega

theorem digitsOf_before {m n : ℕ} (h : m < n) : Before (digitsOf m) (digitsOf n) := by
  -- A longer code starts with a larger digit; codes of one length are compared digit by digit.
  rw [digitsOf, digitsOf]
  split
  · split
    · exact .head h _ _
    · split
      · exact .head (by omega) _ _
      · split <;> exact .head (by omega) _ _
  rw [if_neg (show ¬ n ≤ 127 by omega)]
  split
  · split
    · rcases (by omega : m / 64 < n / 64 ∨ m / 64 = n / 64 ∧ m % 64 < n % 64) with
        hd | ⟨hd, hl⟩
      · exact .head (by omega) _ _
      · rw [hd]
        exact (Before.head (by omega) _ _).cons _
    · split <;> exact .head (by omega) _ _
  rw [if_neg (show ¬ n ≤ 2047 by omega)]
  split
  · split
    · rcases (by omega : m / 4096 < n / 4096 ∨ m / 4096 = n / 4096 ∧
        (m / 64 % 64 < n / 64 % 64 ∨ m / 64 % 64 = n / 64 % 64 ∧ m % 64 < n % 64)) with
        hd | ⟨hd, hl | ⟨he, hl⟩⟩
      · exact .head (by omega) _ _
      · rw [hd]
        exact (Before.head (by omega) _ _).cons _
      · rw [hd, he]
        exact ((Before.head (by omega) _ _).cons _).cons _
    · exact .head (by omega) _ _
  rw [if_neg (show ¬ n ≤ 65535 by omega)]
  rcases (by omega : m / 262144 < n / 262144 ∨ m / 262144 = n / 262144 ∧
    (m / 4096 % 64 < n / 4096 % 64 ∨ m / 4096 % 64 = n / 4096 % 64 ∧
      (m / 64 % 64 < n / 64 % 64 ∨ m / 64 % 64 = n / 64 % 64 ∧ m % 64 < n % 64))) with
    hd | ⟨hd, hl | ⟨he, hl | ⟨hf, hl⟩⟩⟩
  · exact .head (by omega) _ _
  · rw [hd]
    exact (Before.head (by omega) _ _).cons _
  · rw [hd, he]
    exact ((Before.head (by omega) _ _).cons _).cons _
  · rw [hd, he, hf]
    exact (((Before.head (by omega) _ _).cons _).cons _).cons _

theorem charDigits_ordered : Ordered charDigits where
  nonempty c := by
    rw [charDigits, Ne, List.map_eq_nil_iff]
    exact String.utf8EncodeChar_ne_nil
  before c d h := by
    rw [charDigits_eq, charDigits_eq]
    exact digitsOf_before h

end OrderedCodes
