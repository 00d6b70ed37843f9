import Mathlib.Data.Nat.Digits.Defs
import Birdai.Base.Outcomes

/-!
# Byte codecs

Encoders that may fail with a decoder that undoes them, fixed-width integers, and
two texts for bytes: base64 with padding and hexadecimal digits.
-/

namespace ByteCodecs

open Outcomes

abbrev Byte := Fin 256

instance byte_neZero : NeZero 256 := ⟨by decide⟩

theorem byte_pos : 0 < 256 := by decide

def toByte (n : ℕ) : Byte := ⟨n % 256, Nat.mod_lt n byte_pos⟩

/-- A decoder that undoes every successful encoding. -/
structure Codec (α β : Type) where
  encode : α → Except String β
  decode : β → Except String α
  decode_encode : ∀ {a : α} {b : β}, encode a = .ok b → decode b = .ok a

/-- A total encoding as text, with a decoder that undoes it. -/
structure TextCodec (α : Type) where
  encode : α → String
  decode : String → Except String α
  decode_encode : ∀ a : α, decode (encode a) = .ok a

theorem TextCodec.encode_injective {α : Type} (codec : TextCodec α) :
    Function.Injective codec.encode := by
  intro a b h
  have hdecode := codec.decode_encode a
  rw [h, codec.decode_encode b] at hdecode
  exact (Except.ok.inj hdecode).symm

/-- Decoding item by item undoes encoding item by item. -/
theorem mapM_decode {ε ε' α β : Type} {encode : α → Except ε β} {decode : β → Except ε' α}
    (h : ∀ a b, encode a = .ok b → decode b = .ok a) {as : List α} {bs : List β}
    (hencode : as.mapM encode = .ok bs) : bs.mapM decode = .ok as := by
  induction as generalizing bs with
  | nil =>
    cases hencode
    rfl
  | cons a as ih =>
    rw [List.mapM_cons] at hencode
    obtain ⟨b, hb, hencode⟩ := bind_eq_ok_iff.mp hencode
    obtain ⟨rest, hrest, hencode⟩ := bind_eq_ok_iff.mp hencode
    cases hencode
    rw [List.mapM_cons, h a b hb, ok_bind, ih hrest]
    rfl

/-! ### Integers of a fixed width -/

/-- The low digits of a number, least significant first. -/
def digitsLE (base : ℕ) : ℕ → ℕ → List ℕ
  | 0, _ => []
  | width + 1, n => n % base :: digitsLE base width (n / base)

theorem length_digitsLE (base width n : ℕ) : (digitsLE base width n).length = width := by
  induction width generalizing n with
  | zero => rfl
  | succ width ih => rw [digitsLE, List.length_cons, ih]

theorem digitsLE_lt {base : ℕ} (hbase : 0 < base) (width n : ℕ) :
    ∀ d ∈ digitsLE base width n, d < base := by
  induction width generalizing n with
  | zero => nofun
  | succ width ih =>
    rintro d (_ | ⟨_, hd⟩)
    · exact Nat.mod_lt _ hbase
    · exact ih _ d hd

theorem ofDigits_digitsLE {base width n : ℕ} (h : n < base ^ width) :
    Nat.ofDigits base (digitsLE base width n) = n := by
  induction width generalizing n with
  | zero =>
    rw [pow_zero] at h
    rw [digitsLE, Nat.ofDigits_nil]
    omega
  | succ width ih =>
    have hquotient : n / base < base ^ width := by
      apply Nat.div_lt_of_lt_mul
      rwa [mul_comm, ← pow_succ]
    rw [digitsLE, Nat.ofDigits_cons, ih hquotient]
    exact Nat.mod_add_div n base

/-- Bytes from digits below 256, and back. -/
theorem val_toByte_digitsLE (width n : ℕ) :
    ((digitsLE 256 width n).map toByte).map Fin.val = digitsLE 256 width n := by
  rw [List.map_map]
  have hsame : (digitsLE 256 width n).map (Fin.val ∘ toByte) =
      (digitsLE 256 width n).map id := by
    apply List.map_congr_left
    intro d hd
    exact Nat.mod_eq_of_lt (digitsLE_lt (by decide) width n d hd)
  rw [hsame, List.map_id]

/-- Unsigned integers below `bound` as bytes, least significant first. -/
def littleEndian (bound width : ℕ) (hbound : bound = 256 ^ width) :
    Codec (Fin bound) (List Byte) where
  encode n := .ok ((digitsLE 256 width n).map toByte)
  decode bytes :=
    if h : bytes.length = width ∧ Nat.ofDigits 256 (bytes.map Fin.val) < bound then
      .ok ⟨_, h.2⟩
    else .error "unexpected end of input"
  decode_encode := by
    intro n bytes hencode
    cases hencode
    have hvalue : Nat.ofDigits 256 (((digitsLE 256 width n).map toByte).map Fin.val) =
        n.val := by
      rw [val_toByte_digitsLE, ofDigits_digitsLE (hbound ▸ n.isLt)]
    rw [dif_pos ⟨by rw [List.length_map, length_digitsLE], hvalue.trans_lt n.isLt⟩]
    exact congrArg Except.ok (Fin.ext hvalue)

/-- The same bytes, most significant first. -/
def reversed {α : Type} (codec : Codec α (List Byte)) : Codec α (List Byte) where
  encode a := (codec.encode a).map List.reverse
  decode bytes := codec.decode bytes.reverse
  decode_encode := by
    intro a bytes hencode
    cases hcodec : codec.encode a with
    | error e =>
      rw [hcodec] at hencode
      cases hencode
    | ok plain =>
      rw [hcodec] at hencode
      cases hencode
      rw [List.reverse_reverse]
      exact codec.decode_encode hcodec

/-- Two fields in a row, the first of a known width. -/
def pair {α β : Type} (first : Codec α (List Byte)) (second : Codec β (List Byte)) (width : ℕ)
    (hwidth : ∀ a bytes, first.encode a = .ok bytes → bytes.length = width) :
    Codec (α × β) (List Byte) where
  encode p := do
    let head ← first.encode p.1
    let tail ← second.encode p.2
    .ok (head ++ tail)
  decode bytes := do
    let a ← first.decode (bytes.take width)
    let b ← second.decode (bytes.drop width)
    .ok (a, b)
  decode_encode := by
    intro p bytes hencode
    obtain ⟨head, hhead, hencode⟩ := bind_eq_ok_iff.mp hencode
    obtain ⟨tail, htail, hencode⟩ := bind_eq_ok_iff.mp hencode
    cases hencode
    rw [List.take_left' (hwidth _ _ hhead), List.drop_left' (hwidth _ _ hhead),
      first.decode_encode hhead, ok_bind, second.decode_encode htail, ok_bind]

/-! ### Base64 -/

def base64Alphabet : List Char :=
  "ABCDEFGHIJKLMNOPQRSTUVWXYZabcdefghijklmnopqrstuvwxyz0123456789+/".toList

def base64Char (n : ℕ) : Char := base64Alphabet.getD n '='

def sextet (c : Char) : Option ℕ := base64Alphabet.idxOf? c

/-- Three bytes are four characters; a shorter end is padded. -/
def encodeBase64 : List Byte → List Char
  | [] => []
  | [a] => [base64Char (a / 4), base64Char (a % 4 * 16), '=', '=']
  | [a, b] =>
    [base64Char (a / 4), base64Char (a % 4 * 16 + b / 16), base64Char (b % 16 * 4), '=']
  | a :: b :: c :: rest =>
    base64Char (a / 4) :: base64Char (a % 4 * 16 + b / 16) ::
      base64Char (b % 16 * 4 + c / 64) :: base64Char (c % 64) :: encodeBase64 rest

/-- Padding stands only at the end, and the bits it leaves over are zero. -/
def decodeBase64 : List Char → Option (List Byte)
  | [] => some []
  | p :: q :: r :: s :: rest => do
    let p ← sextet p
    let q ← sextet q
    let a := toByte (p * 4 + q / 16)
    if s = '=' then
      if rest ≠ [] then none
      else if r = '=' then
        if q % 16 = 0 then some [a] else none
      else do
        let r ← sextet r
        if r % 4 = 0 then some [a, toByte (q % 16 * 16 + r / 4)] else none
    else do
      let r ← sextet r
      let s ← sextet s
      let bytes ← decodeBase64 rest
      some (a :: toByte (q % 16 * 16 + r / 4) :: toByte (r % 4 * 64 + s) :: bytes)
  | _ => none

theorem sextet_base64Char {n : ℕ} (h : n < 64) : sextet (base64Char n) = some n := by
  have hall : ∀ n < 64, sextet (base64Char n) = some n := by decide +kernel
  exact hall n h

theorem base64Char_ne_padding {n : ℕ} (h : n < 64) : base64Char n ≠ '=' := by
  have hall : ∀ n < 64, base64Char n ≠ '=' := by decide +kernel
  exact hall n h

theorem toByte_eq {n : ℕ} {a : Byte} (h : n = a.val) : toByte n = a := by
  apply Fin.ext
  rw [h]
  exact Nat.mod_eq_of_lt a.isLt

theorem decodeBase64_encodeBase64 (bytes : List Byte) :
    decodeBase64 (encodeBase64 bytes) = some bytes := by
  induction bytes using encodeBase64.induct with
  | case1 => rfl
  | case2 a =>
    have ha := a.isLt
    rw [encodeBase64, decodeBase64, sextet_base64Char (by omega), sextet_base64Char (by omega)]
    simp only [Option.bind_eq_bind, Option.bind_some]
    rw [if_pos trivial, if_neg (not_not.mpr rfl), if_pos trivial, if_pos (by omega),
      toByte_eq (show _ = a.val by omega)]
  | case3 a b =>
    have ha := a.isLt
    have hb := b.isLt
    rw [encodeBase64, decodeBase64, sextet_base64Char (by omega), sextet_base64Char (by omega),
      sextet_base64Char (by omega)]
    simp only [Option.bind_eq_bind, Option.bind_some]
    rw [if_pos trivial, if_neg (not_not.mpr rfl), if_neg (base64Char_ne_padding (by omega)),
      if_pos (by omega), toByte_eq (show _ = a.val by omega),
      toByte_eq (show _ = b.val by omega)]
  | case4 a b c rest ih =>
    have ha := a.isLt
    have hb := b.isLt
    have hc := c.isLt
    rw [encodeBase64, decodeBase64, sextet_base64Char (by omega), sextet_base64Char (by omega),
      sextet_base64Char (by omega), sextet_base64Char (by omega), ih]
    simp only [Option.bind_eq_bind, Option.bind_some]
    rw [if_neg (base64Char_ne_padding (by omega)), toByte_eq (show _ = a.val by omega),
      toByte_eq (show _ = b.val by omega), toByte_eq (show _ = c.val by omega)]

def base64 : TextCodec (List Byte) where
  encode bytes := String.ofList (encodeBase64 bytes)
  decode text := okOr (decodeBase64 text.toList) "invalid base64"
  decode_encode bytes := by
    rw [String.toList_ofList, decodeBase64_encodeBase64]
    rfl

/-! ### Hexadecimal digits -/

def hexPrefix : List Char := "0x".toList

def hexDigits : List Char := "0123456789abcdef".toList

def hexChar (n : ℕ) : Char := hexDigits.getD n '0'

def hexValue (c : Char) : Option ℕ := hexDigits.idxOf? c.toLower

theorem hexValue_hexChar {n : ℕ} (h : n < 16) : hexValue (hexChar n) = some n := by
  have hall : ∀ n < 16, hexValue (hexChar n) = some n := by decide +kernel
  exact hall n h

theorem mapM_hexValue {digits : List ℕ} (h : ∀ d ∈ digits, d < 16) :
    (digits.map hexChar).mapM hexValue = some digits := by
  induction digits with
  | nil => rfl
  | cons d digits ih =>
    rw [List.map_cons, List.mapM_cons, hexValue_hexChar (h d List.mem_cons_self),
      ih fun d hd => h d (List.mem_cons_of_mem _ hd)]
    rfl

/-- Integers below `bound` as a fixed number of digits after `0x`; fewer digits read as if
padded with zeros. -/
def hexadecimal (bound width : ℕ) (hbound : bound = 16 ^ width) : TextCodec (Fin bound) where
  encode n := String.ofList (hexPrefix ++ (digitsLE 16 width n).reverse.map hexChar)
  decode text := do
    let chars := text.toList
    let digits ← okOr ((if chars.take 2 = hexPrefix then chars.drop 2 else chars).mapM hexValue)
      "invalid digit"
    if h : digits.length ≤ width ∧ Nat.ofDigits 16 digits.reverse < bound then .ok ⟨_, h.2⟩
    else .error "invalid length"
  decode_encode n := by
    have hlt : ∀ d ∈ (digitsLE 16 width n).reverse, d < 16 := fun d hd =>
      digitsLE_lt (by decide) width n d (List.mem_reverse.mp hd)
    have hdigits := mapM_hexValue hlt
    have hprefix : hexPrefix.length = 2 := by decide
    have hvalue : Nat.ofDigits 16 (digitsLE 16 width n).reverse.reverse = n.val := by
      rw [List.reverse_reverse, ofDigits_digitsLE (hbound ▸ n.isLt)]
    dsimp only
    rw [String.toList_ofList, List.take_left' hprefix, if_pos rfl, List.drop_left' hprefix,
      hdigits]
    dsimp only [okOr]
    have hlength : (digitsLE 16 width n).reverse.length ≤ width := by
      rw [List.length_reverse, length_digitsLE]
    rw [ok_bind, dif_pos ⟨hlength, hvalue.trans_lt n.isLt⟩]
    exact congrArg Except.ok (Fin.ext hvalue)

end ByteCodecs
