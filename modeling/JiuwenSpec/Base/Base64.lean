import JiuwenSpec.Base.Json

/-!
# Base64

The standard alphabet with padding, written by threes of bytes and read sextet by sextet, where
characters outside the alphabet are passed over.
-/

namespace JiuwenSpec.Base

open List

def sextetChar (n : Nat) : Char :=
  if n < 26 then Char.ofNat (65 + n)
  else if n < 52 then Char.ofNat (97 + (n - 26))
  else if n < 62 then Char.ofNat (48 + (n - 52))
  else if n = 62 then '+'
  else '/'

def sextet (c : Char) : Option Nat :=
  if 65 ≤ c.toNat ∧ c.toNat ≤ 90 then some (c.toNat - 65)
  else if 97 ≤ c.toNat ∧ c.toNat ≤ 122 then some (c.toNat - 97 + 26)
  else if 48 ≤ c.toNat ∧ c.toNat ≤ 57 then some (c.toNat - 48 + 52)
  else if c = '+' then some 62
  else if c = '/' then some 63
  else none

/-- `base64.b64encode`. -/
def b64encode : List UInt8 → Text
  | [] => []
  | [a] => [sextetChar (a.toNat / 4), sextetChar (a.toNat % 4 * 16), '=', '=']
  | [a, b] =>
    [sextetChar (a.toNat / 4), sextetChar (a.toNat % 4 * 16 + b.toNat / 16),
      sextetChar (b.toNat % 16 * 4), '=']
  | a :: b :: c :: rest =>
    sextetChar (a.toNat / 4) :: sextetChar (a.toNat % 4 * 16 + b.toNat / 16) ::
      sextetChar (b.toNat % 16 * 4 + c.toNat / 64) :: sextetChar (c.toNat % 64) :: b64encode rest

/-- `a2b_base64` at a position in a quad, with the bits left over and the pads before it. -/
def a2bBase64 (quadPos left pads : Nat) : Text → Option (List UInt8)
  | [] => if quadPos = 0 then some [] else none
  | c :: cs =>
    if c = '=' then
      if quadPos < 2 then a2bBase64 quadPos left pads cs
      -- A pad sequence ends the input.
      else if 4 ≤ quadPos + (pads + 1) then some []
      else a2bBase64 quadPos left (pads + 1) cs
    else
      match sextet c with
      | none => a2bBase64 quadPos left pads cs
      | some v =>
        match quadPos with
        | 0 => a2bBase64 1 v 0 cs
        | 1 => (a2bBase64 2 (v % 16) 0 cs).map (UInt8.ofNat (left * 4 + v / 16) :: ·)
        | 2 => (a2bBase64 3 (v % 4) 0 cs).map (UInt8.ofNat (left * 16 + v / 4) :: ·)
        | _ => (a2bBase64 0 0 0 cs).map (UInt8.ofNat (left * 64 + v) :: ·)

/-- `base64.b64decode` of a text; `none` where it raises. -/
def b64decode (text : Text) : Option (List UInt8) :=
  if text.all fun c => decide (c.toNat < 128) then a2bBase64 0 0 0 text else none

theorem sextet_sextetChar {n : Nat} (hn : n < 64) :
    sextet (sextetChar n) = some n ∧ sextetChar n ≠ '=' ∧ (sextetChar n).toNat < 128 := by
  have hall : ∀ m : Fin 64, sextet (sextetChar m) = some m.val ∧ sextetChar m ≠ '=' ∧
      (sextetChar m).toNat < 128 := by decide
  exact hall ⟨n, hn⟩

theorem a2bBase64_sextetChar {n : Nat} (hn : n < 64) (left pads : Nat) (cs : Text) :
    a2bBase64 0 left pads (sextetChar n :: cs) = a2bBase64 1 n 0 cs ∧
      a2bBase64 1 left pads (sextetChar n :: cs) =
        (a2bBase64 2 (n % 16) 0 cs).map (UInt8.ofNat (left * 4 + n / 16) :: ·) ∧
      a2bBase64 2 left pads (sextetChar n :: cs) =
        (a2bBase64 3 (n % 4) 0 cs).map (UInt8.ofNat (left * 16 + n / 4) :: ·) ∧
      a2bBase64 3 left pads (sextetChar n :: cs) =
        (a2bBase64 0 0 0 cs).map (UInt8.ofNat (left * 64 + n) :: ·) := by
  obtain ⟨hread, hpad, -⟩ := sextet_sextetChar hn
  refine ⟨?_, ?_, ?_, ?_⟩
  all_goals
    rw [a2bBase64, if_neg hpad]
    simp only [hread]

theorem ofNat_of_eq {a : UInt8} {n : Nat} (h : n = a.toNat) : UInt8.ofNat n = a := by
  rw [h, UInt8.ofNat_toNat]

theorem a2bBase64_b64encode (bytes : List UInt8) :
    a2bBase64 0 0 0 (b64encode bytes) = some bytes := by
  induction bytes using b64encode.induct with
  | case1 => rfl
  | case2 a =>
    have ha := a.toNat_lt
    rw [b64encode, (a2bBase64_sextetChar (by omega) _ _ _).1,
      (a2bBase64_sextetChar (by omega) _ _ _).2.1, ofNat_of_eq (a := a) (by omega)]
    rfl
  | case3 a b =>
    have ha := a.toNat_lt
    have hb := b.toNat_lt
    rw [b64encode, (a2bBase64_sextetChar (by omega) _ _ _).1,
      (a2bBase64_sextetChar (by omega) _ _ _).2.1, (a2bBase64_sextetChar (by omega) _ _ _).2.2.1,
      ofNat_of_eq (a := a) (by omega), ofNat_of_eq (a := b) (by omega)]
    rfl
  | case4 a b c rest ih =>
    have ha := a.toNat_lt
    have hb := b.toNat_lt
    have hc := c.toNat_lt
    rw [b64encode, (a2bBase64_sextetChar (by omega) _ _ _).1,
      (a2bBase64_sextetChar (by omega) _ _ _).2.1, (a2bBase64_sextetChar (by omega) _ _ _).2.2.1,
      (a2bBase64_sextetChar (by omega) _ _ _).2.2.2, ih, ofNat_of_eq (a := a) (by omega),
      ofNat_of_eq (a := b) (by omega), ofNat_of_eq (a := c) (by omega)]
    rfl

theorem b64encode_ascii (bytes : List UInt8) : ∀ c ∈ b64encode bytes, c.toNat < 128 := by
  have hchar : ∀ n, n < 64 → (sextetChar n).toNat < 128 := fun n hn => (sextet_sextetChar hn).2.2
  induction bytes using b64encode.induct with
  | case1 => simp [b64encode]
  | case2 a =>
    have ha := a.toNat_lt
    rw [b64encode]
    simp only [forall_mem_cons, not_mem_nil, false_imp_iff, implies_true, and_true]
    exact ⟨hchar _ (by omega), hchar _ (by omega), by decide, by decide⟩
  | case3 a b =>
    have ha := a.toNat_lt
    have hb := b.toNat_lt
    rw [b64encode]
    simp only [forall_mem_cons, not_mem_nil, false_imp_iff, implies_true, and_true]
    exact ⟨hchar _ (by omega), hchar _ (by omega), hchar _ (by omega), by decide⟩
  | case4 a b c rest ih =>
    have ha := a.toNat_lt
    have hb := b.toNat_lt
    have hc := c.toNat_lt
    rw [b64encode]
    simp only [forall_mem_cons]
    exact ⟨hchar _ (by omega), hchar _ (by omega), hchar _ (by omega), hchar _ (by omega), ih⟩

theorem b64decode_b64encode (bytes : List UInt8) : b64decode (b64encode bytes) = some bytes := by
  have hascii : ((b64encode bytes).all fun c => decide (c.toNat < 128)) = true := by
    rw [all_eq_true]
    exact fun c hc => decide_eq_true (b64encode_ascii bytes c hc)
  rw [b64decode, if_pos hascii, a2bBase64_b64encode]

end JiuwenSpec.Base
