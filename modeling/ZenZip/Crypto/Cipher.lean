import Mathlib.Data.List.Infix
import Mathlib.Data.String.Basic

namespace ZenZip

/-- SHA-256, AES-256-GCM and base64 as their libraries provide them. -/
structure Primitives where
  sha256 : ByteArray → ByteArray
  encrypt : (key nonce plaintext : ByteArray) → ByteArray
  decrypt : (key nonce ciphertext : ByteArray) → Option ByteArray
  encode : ByteArray → String
  decode : String → Option ByteArray

def nonceLen : Nat := 12

abbrev Nonce := { bytes : ByteArray // bytes.size = nonceLen }

/-- Decryption undoes encryption, whose output carries a tag of 16 bytes, and base64
round-trips. -/
structure Primitives.Lawful (P : Primitives) : Prop where
  decrypt_encrypt : ∀ (key : ByteArray) (nonce : Nonce) (plaintext : ByteArray),
    P.decrypt key nonce.1 (P.encrypt key nonce.1 plaintext) = some plaintext
  size_encrypt : ∀ (key : ByteArray) (nonce : Nonce) (plaintext : ByteArray),
    (P.encrypt key nonce.1 plaintext).size = plaintext.size + 16
  decode_encode : ∀ bytes, P.decode (P.encode bytes) = some bytes

namespace Primitives

def tagOf (key : ByteArray) : ByteArray := (key ++ ⟨Array.replicate 16 0⟩).extract 0 16

/-- A cipher with a tag and nothing else, and an encoding with a character a byte: the
least that is lawful. -/
def tagged : Primitives where
  sha256 bytes := bytes
  encrypt key _ plaintext := plaintext ++ tagOf key
  decrypt key _ sealed :=
    if (sealed.extract (sealed.size - 16) sealed.size).data = (tagOf key).data then
      some (sealed.extract 0 (sealed.size - 16))
    else none
  encode bytes := .ofList (bytes.data.toList.map (fun b => Char.ofNat b.toNat))
  decode text := some ⟨(text.toList.map (fun c => UInt8.ofNat c.toNat)).toArray⟩

theorem tagOf_size (key : ByteArray) : (tagOf key).size = 16 := by
  rw [tagOf, ByteArray.size_extract, ByteArray.size_append]
  show min 16 (key.size + 16) - 0 = 16
  omega

theorem tagged_lawful : tagged.Lawful where
  decrypt_encrypt key nonce plaintext := by
    have hsize : (plaintext ++ tagOf key).size - 16 = plaintext.size := by
      rw [ByteArray.size_append, tagOf_size]
      omega
    have htag : (plaintext ++ tagOf key).extract plaintext.size (plaintext ++ tagOf key).size =
      tagOf key :=
      ByteArray.extract_append_eq_right rfl ByteArray.size_append
    have hplain : (plaintext ++ tagOf key).extract 0 plaintext.size = plaintext :=
      ByteArray.extract_append_eq_left rfl
    simp only [tagged, hsize, htag, if_true, hplain]
  size_encrypt key nonce plaintext := by
    rw [tagged, ByteArray.size_append, tagOf_size]
  decode_encode bytes := by
    have hbyte : (fun c : Char => UInt8.ofNat c.toNat) ∘ (fun b : UInt8 => Char.ofNat b.toNat) =
      id := by
      funext b
      have hvalid : b.toNat.isValidChar := .inl (Nat.lt_trans b.toNat_lt (by decide))
      have hchar : (Char.ofNat b.toNat).toNat = b.toNat := by
        rw [Char.ofNat, dif_pos hvalid]
        rfl
      rw [Function.comp_apply, hchar, UInt8.ofNat_toNat, id]
    simp only [tagged, String.toList_ofList, List.map_map, hbyte, List.map_id, Array.toArray_toList]

end Primitives

def stripPrefix (start s : String) : Option String :=
  if start.toList <+: s.toList then some (.ofList (s.toList.drop start.toList.length)) else none

theorem stripPrefix_append (start s : String) : stripPrefix start (start ++ s) = some s := by
  simp [stripPrefix]

/-- No key passes the payloads through. -/
structure Crypto where
  key : Option ByteArray

namespace Crypto

def encPrefix : String := "enc:1:"

def new (P : Primitives) (passphrase : Option String) : Crypto :=
  ⟨(passphrase.filter (fun p => !p.isEmpty)).map (fun p => P.sha256 p.toUTF8)⟩

def disabled : Crypto := ⟨none⟩

variable (P : Primitives) (c : Crypto)

def enc (nonce : Nonce) (plaintext : String) : String :=
  match c.key with
  | none => plaintext
  | some key => encPrefix ++ P.encode (nonce.1 ++ P.encrypt key nonce.1 plaintext.toUTF8)

/-- What is no ciphertext of the key is handed on as it is. -/
def dec (stored : String) : String :=
  match stripPrefix encPrefix stored, c.key with
  | some rest, some key => match P.decode rest with
    | some blob =>
      if blob.size ≤ nonceLen then stored
      else match P.decrypt key (blob.extract 0 nonceLen) (blob.extract nonceLen blob.size) with
        | some plaintext => (String.fromUTF8? plaintext).getD stored
        | none => stored
    | none => stored
  | _, _ => stored

theorem dec_disabled (stored : String) : disabled.dec P stored = stored := by
  unfold dec
  split
  · next h => cases h
  · rfl

theorem dec_plain {stored : String} (h : stripPrefix encPrefix stored = none) :
    c.dec P stored = stored := by
  rw [dec, h]

theorem fromUTF8?_toUTF8 (s : String) : String.fromUTF8? s.toUTF8 = some s := by
  rw [String.fromUTF8?, String.toUTF8_eq_toByteArray, dif_pos s.isValidUTF8]
  rfl

variable {P}

theorem dec_enc (hP : P.Lawful) (nonce : Nonce) (plaintext : String) :
    c.dec P (c.enc P nonce plaintext) = plaintext := by
  cases hk : c.key with
  | none =>
      simp only [enc, dec, hk]
      split
      · next h => cases h
      · rfl
  | some key =>
      let sealed := P.encrypt key nonce.1 plaintext.toUTF8
      have hsize : sealed.size = plaintext.toUTF8.size + 16 := hP.size_encrypt key nonce _
      have hlong : ¬ (nonce.1 ++ sealed).size ≤ nonceLen := by
        rw [ByteArray.size_append, nonce.2, hsize]
        omega
      have hnonce : (nonce.1 ++ sealed).extract 0 nonceLen = nonce.1 :=
        ByteArray.extract_append_eq_left nonce.2.symm
      have hrest : (nonce.1 ++ sealed).extract nonceLen (nonce.1 ++ sealed).size = sealed :=
        ByteArray.extract_append_eq_right nonce.2.symm ByteArray.size_append
      have hopen : P.decrypt key nonce.1 sealed = some plaintext.toUTF8 :=
        hP.decrypt_encrypt key nonce _
      simp only [enc, dec, hk, stripPrefix_append, hP.decode_encode, if_neg hlong, hnonce, hrest,
        hopen, fromUTF8?_toUTF8,
        Option.getD_some, sealed]

end Crypto

end ZenZip
