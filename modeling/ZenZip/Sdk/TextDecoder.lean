import Mathlib.Data.List.Basic

namespace ZenZip

/-- What a series of `decode(chunk, { stream: true })` returns, one after the other. -/
def decodeAll {S : Type} (decode : S → List UInt8 → List Char × S) :
    S → List (List UInt8) → List Char
  | _, [] => []
  | s, c :: cs => (decode s c).1 ++ decodeAll decode (decode s c).2 cs

/-- `TextDecoder` in stream mode: where the bytes are cut makes no difference to the text. -/
structure TextDecoder where
  State : Type
  init : State
  decode : State → List UInt8 → List Char × State
  text : List UInt8 → List Char
  decodes : ∀ chunks, decodeAll decode init chunks = text chunks.flatten

section Bytes

variable {S : Type} (step : S → UInt8 → List Char × S)

def bytewise : S → List UInt8 → List Char × S
  | s, [] => ([], s)
  | s, b :: bs => ((step s b).1 ++ (bytewise (step s b).2 bs).1, (bytewise (step s b).2 bs).2)

theorem bytewise_append (s : S) (x y : List UInt8) : bytewise step s (x ++ y) =
    ((bytewise step s x).1 ++ (bytewise step (bytewise step s x).2 y).1,
    (bytewise step (bytewise step s x).2 y).2) := by
  induction x generalizing s with
  | nil => rfl
  | cons b x ih => rw [List.cons_append, bytewise, ih, bytewise, List.append_assoc]

theorem decodeAll_bytewise (s : S) (chunks : List (List UInt8)) :
    decodeAll (bytewise step) s chunks = (bytewise step s chunks.flatten).1 := by
  induction chunks generalizing s with
  | nil => rfl
  | cons c cs ih => rw [decodeAll, ih, List.flatten_cons, bytewise_append]

def TextDecoder.ofStep (init : S) : TextDecoder :=
  ⟨S, init, bytewise step, fun bs => (bytewise step init bs).1, decodeAll_bytewise step init⟩

end Bytes

/-- A sequence of UTF-8 that has begun: how many bytes it still takes, the bounds of the next one,
and the bits so far. -/
structure Utf8State where
  needed : Nat
  lower : Nat
  upper : Nat
  code : Nat

namespace Utf8State

def start : Utf8State := ⟨0, 128, 191, 0⟩

def replacement : Char := Char.ofNat 65533

def lead (n : Nat) : List Char × Utf8State :=
  if n < 128 then ([Char.ofNat n], start)
  else if 194 ≤ n ∧ n < 224 then ([], ⟨1, 128, 191, n - 192⟩)
  else if 224 ≤ n ∧ n < 240 then
    ([], ⟨2, if n = 224 then 160 else 128, if n = 237 then 159 else 191, n - 224⟩)
  else if 240 ≤ n ∧ n < 245 then
    ([], ⟨3, if n = 240 then 144 else 128, if n = 244 then 143 else 191, n - 240⟩)
  else ([replacement], start)

def step (s : Utf8State) (b : UInt8) : List Char × Utf8State :=
  match s.needed with
  | 0 => lead b.toNat
  | needed + 1 =>
    if b.toNat < s.lower ∨ s.upper < b.toNat then
      (replacement :: (lead b.toNat).1, (lead b.toNat).2)
    else if needed = 0 then ([Char.ofNat (s.code * 64 + (b.toNat - 128))], start)
    else ([], ⟨needed, 128, 191, s.code * 64 + (b.toNat - 128)⟩)

def encode (c : Char) : List UInt8 :=
  if c.toNat < 128 then [.ofNat c.toNat]
  else if c.toNat < 2048 then [.ofNat (192 + c.toNat / 64), .ofNat (128 + c.toNat % 64)]
  else if c.toNat < 65536 then
    [.ofNat (224 + c.toNat / 4096), .ofNat (128 + c.toNat / 64 % 64), .ofNat (128 + c.toNat % 64)]
  else [.ofNat (240 + c.toNat / 262144), .ofNat (128 + c.toNat / 4096 % 64),
    .ofNat (128 + c.toNat / 64 % 64),
    .ofNat (128 + c.toNat % 64)]

theorem toNat_byte {n : Nat} (h : n < 256) : (UInt8.ofNat n).toNat = n := UInt8.toNat_ofNat_of_lt' h

theorem step_start {n : Nat} (h : n < 256) : step start (.ofNat n) = lead n := by
  show lead (UInt8.ofNat n).toNat = _
  rw [toNat_byte h]

theorem step_last {n lower upper code : Nat} (h : n < 64) (hlow : lower ≤ 128 + n)
    (hup : 128 + n ≤ upper) :
    step ⟨1, lower, upper, code⟩ (.ofNat (128 + n)) = ([Char.ofNat (code * 64 + n)], start) := by
  simp only [step, toNat_byte (show 128 + n < 256 by omega)]
  rw [if_neg (by omega), if_pos trivial, Nat.add_sub_cancel_left]

theorem step_more {n lower upper code needed : Nat} (h : n < 64) (hlow : lower ≤ 128 + n)
    (hup : 128 + n ≤ upper) :
    step ⟨needed + 2, lower, upper, code⟩ (.ofNat (128 + n)) =
      ([], ⟨needed + 1, 128, 191, code * 64 + n⟩) := by
  simp only [step, toNat_byte (show 128 + n < 256 by omega)]
  rw [if_neg (by omega), if_neg (by omega), Nat.add_sub_cancel_left]

theorem toNat_range (c : Char) : c.toNat < 55296 ∨ 57343 < c.toNat ∧ c.toNat < 1114112 := c.valid

theorem bytewise_encode (c : Char) : bytewise step start (encode c) = ([c], start) := by
  have hrange := toNat_range c
  have hc {n : Nat} (h : n = c.toNat) : Char.ofNat n = c := by rw [h, Char.ofNat_toNat]
  unfold encode
  split
  · next h =>
      rw [bytewise, step_start (by omega), lead, if_pos h, Char.ofNat_toNat]
      rfl
  split
  · next h h₂ =>
      have hlead : lead (192 + c.toNat / 64) = ([], ⟨1, 128, 191, c.toNat / 64⟩) := by
        rw [lead, if_neg (by omega), if_pos (by omega), Nat.add_sub_cancel_left]
      simp only [bytewise, step_start (show 192 + c.toNat / 64 < 256 by omega), hlead]
      rw [step_last (by omega) (by omega) (by omega), hc (by omega)]
      rfl
  split
  · next h h₂ h₃ =>
      have hlead : lead (224 + c.toNat / 4096) =
        ([], ⟨2, if 224 + c.toNat / 4096 = 224 then 160 else 128,
          if 224 + c.toNat / 4096 = 237 then 159 else 191, c.toNat / 4096⟩) := by
        rw [lead, if_neg (by omega), if_neg (by omega), if_pos (by omega), Nat.add_sub_cancel_left]
      simp only [bytewise, step_start (show 224 + c.toNat / 4096 < 256 by omega), hlead]
      rw [step_more (by omega) (by split <;> omega) (by split <;> omega),
        step_last (by omega) (by omega) (by omega), hc (by omega)]
      rfl
  · next h h₂ h₃ =>
      have hlead : lead (240 + c.toNat / 262144) =
        ([], ⟨3, if 240 + c.toNat / 262144 = 240 then 144 else 128,
          if 240 + c.toNat / 262144 = 244 then 143 else 191, c.toNat / 262144⟩) := by
        rw [lead, if_neg (by omega), if_neg (by omega), if_neg (by omega), if_pos (by omega),
          Nat.add_sub_cancel_left]
      simp only [bytewise, step_start (show 240 + c.toNat / 262144 < 256 by omega), hlead]
      rw [step_more (by omega) (by split <;> omega) (by split <;> omega),
        step_more (by omega) (by omega) (by omega),
        step_last (by omega) (by omega) (by omega), hc (by omega)]
      rfl

end Utf8State

def utf8 : TextDecoder := .ofStep Utf8State.step .start

theorem utf8_text (cs : List Char) : utf8.text (cs.flatMap Utf8State.encode) = cs := by
  have hall : bytewise Utf8State.step .start (cs.flatMap Utf8State.encode) = (cs, .start) := by
    induction cs with
    | nil => rfl
    | cons c cs ih =>
        rw [List.flatMap_cons, bytewise_append, Utf8State.bytewise_encode, ih]
        rfl
  exact congrArg Prod.fst hall

/-- The bytes of `Buffer.from(text)`. -/
def bufferFrom (text : List Char) : List UInt8 := text.flatMap Utf8State.encode

theorem bufferFrom_inj {x y : List Char} (h : bufferFrom x = bufferFrom y) : x = y := by
  rw [← utf8_text x, ← utf8_text y]
  exact congrArg utf8.text h

end ZenZip
