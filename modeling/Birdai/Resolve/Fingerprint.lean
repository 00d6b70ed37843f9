import Birdai.Base.PrefixCodes
import Birdai.Move.MoveTypes

/-!
# The bytes a layout is fingerprinted by

Names, addresses and variant tags are fed to the hasher one after the other, with
punctuation between some of them and no lengths. Where a raw part reads as the
token that could stand in its place, two layouts share their bytes.
-/

namespace LayoutFingerprint

open WideArith ByteCodecs MoveTypes PrefixCodes

/-! ### What is fed to the hasher -/

/-- A text in UTF-8. -/
def textBytes (text : String) : List Byte :=
  (text.toList.flatMap String.utf8EncodeChar).map fun b => toByte b.toNat

def addressBytes (address : Address) : List Byte :=
  ((digitsLE 256 32 address.val).map toByte).reverse

/-- `tag.to_le_bytes()`. -/
def tagBytes (tag : Fin (2 ^ 16)) : List Byte := (digitsLE 256 2 tag.val).map toByte

mutual

def hashTag : TagOver TypeTag → List Byte
  | ⟨address, module, name, typeParams⟩ =>
    addressBytes address ++ (textBytes module ++ (textBytes "::" ++ (textBytes name ++
      (textBytes "<" ++ (hashParams typeParams ++ textBytes ">")))))

def hashTypeTag : TypeTag → List Byte
  | .vector inner => textBytes "vector(" ++ (hashTypeTag inner ++ textBytes ")")
  | .struct inner => hashTag inner
  | .primitive p => textBytes p.text

def hashParams : List TypeTag → List Byte
  | [] => []
  | param :: rest => hashTypeTag param ++ hashParams rest

end

mutual

def hashInto : MoveTypeLayout → List Byte
  | .primitive p => textBytes p.text
  | .vector inner => textBytes "vector(" ++ (hashInto inner ++ textBytes ")")
  | .struct type fields =>
    textBytes "struct(" ++ (hashTag type ++ (hashFields fields ++ textBytes ")"))
  | .enum type variants =>
    textBytes "enum(" ++ (hashTag type ++ (hashVariants variants ++ textBytes ")"))

def hashFields : List (FieldOver MoveTypeLayout) → List Byte
  | [] => []
  | ⟨name, layout⟩ :: rest =>
    textBytes name ++ (textBytes ":" ++ (hashInto layout ++ (textBytes "," ++ hashFields rest)))

def hashVariants : List ((String × Fin (2 ^ 16)) × List (FieldOver MoveTypeLayout)) → List Byte
  | [] => []
  | ((name, tag), fields) :: rest =>
    textBytes name ++ (tagBytes tag ++ (hashFields fields ++ hashVariants rest))

end

/-! ### Identifiers -/

/-- Digits, capital and small letters, and the underscore. -/
def identCode (n : ℕ) : Bool :=
  (48 ≤ n && n ≤ 57) || (65 ≤ n && n ≤ 90) || n = 95 || (97 ≤ n && n ≤ 122)

def IsIdentifier (name : String) : Prop :=
  name.toList ≠ [] ∧ ∀ c ∈ name.toList, identCode c.toNat = true

theorem isIdentifier_iff {name : String} :
    (!name.toList.isEmpty && name.toList.all fun c => identCode c.toNat) = true ↔
      IsIdentifier name := by
  simp [IsIdentifier]

instance : DecidablePred IsIdentifier := fun _ => decidable_of_iff _ isIdentifier_iff

/-- The bytes an identifier is made of. -/
abbrev IdentByte (b : Byte) : Prop := identCode b.val = true

theorem identCode_lt {n : ℕ} (h : identCode n = true) : n < 128 := by
  simp only [identCode, Bool.or_eq_true, Bool.and_eq_true, decide_eq_true_eq] at h
  omega

theorem toByte_ofNat (n : ℕ) : toByte (UInt8.ofNat n).toNat = toByte n :=
  Fin.ext (Nat.mod_mod n 256)

theorem utf8EncodeChar_of_lt {c : Char} (h : c.toNat < 128) :
    (String.utf8EncodeChar c).map (fun b => toByte b.toNat) = [toByte c.toNat] := by
  have hval : c.val.toNat ≤ 0x7f := Nat.le_of_lt_succ h
  have hencode : String.utf8EncodeChar c = [UInt8.ofNat c.val.toNat] := if_pos hval
  rw [hencode, List.map_singleton, toByte_ofNat]
  rfl

/-- An identifier is one byte a character. -/
theorem textBytes_of_ident {name : String} (h : IsIdentifier name) :
    textBytes name = name.toList.map fun c => toByte c.toNat := by
  have key : ∀ l : List Char, (∀ c ∈ l, identCode c.toNat = true) →
      (l.flatMap String.utf8EncodeChar).map (fun b => toByte b.toNat) =
        l.map fun c => toByte c.toNat := by
    intro l hl
    induction l with
    | nil => rfl
    | cons c rest ih =>
      have hc := utf8EncodeChar_of_lt (identCode_lt (hl c List.mem_cons_self))
      rw [List.flatMap_cons, List.map_append, hc, ih fun x hx => hl x (List.mem_cons_of_mem _ hx)]
      rfl
  exact key name.toList h.2

theorem val_toByte {n : ℕ} (h : n < 128) : (toByte n).val = n :=
  Nat.mod_eq_of_lt (h.trans (by decide))

theorem identByte_of_mem {name : String} (h : IsIdentifier name) :
    ∀ b ∈ textBytes name, IdentByte b := by
  rw [textBytes_of_ident h]
  intro b hb
  obtain ⟨c, hc, rfl⟩ := List.mem_map.mp hb
  have hcode := h.2 c hc
  rw [IdentByte, val_toByte (identCode_lt hcode)]
  exact hcode

theorem textBytes_injective {name name' : String} (h : IsIdentifier name)
    (h' : IsIdentifier name') (heq : textBytes name = textBytes name') : name = name' := by
  have codes : ∀ {s : String}, IsIdentifier s →
      (textBytes s).map Fin.val = s.toList.map Char.toNat := by
    intro s hs
    rw [textBytes_of_ident hs, List.map_map]
    apply List.map_congr_left
    intro c hc
    exact val_toByte (identCode_lt (hs.2 c hc))
  have hcodes := congrArg (List.map Fin.val) heq
  rw [codes h, codes h'] at hcodes
  exact String.toList_injective
    ((List.map_inj_right fun _ _ hc => Char.toNat_inj.mp hc).mp hcodes)

theorem textBytes_eq_cons {name : String} (h : IsIdentifier name) :
    ∃ b rest, textBytes name = b :: rest ∧ IdentByte b := by
  have hne : textBytes name ≠ [] := by
    rw [textBytes_of_ident h]
    simpa using h.1
  obtain ⟨b, rest, heq⟩ := List.exists_cons_of_ne_nil hne
  exact ⟨b, rest, heq, identByte_of_mem h b (heq ▸ List.mem_cons_self)⟩

/-! ### Tokens -/

def primitives : List Primitive :=
  [.bool, .u8, .u16, .u32, .u64, .u128, .u256, .address, .signer]

theorem mem_primitives (p : Primitive) : p ∈ primitives := by
  cases p <;> decide

theorem text_injective {p q : Primitive} (h : textBytes p.text = textBytes q.text) : p = q :=
  List.inj_on_of_nodup_map (f := fun p : Primitive => textBytes p.text) (l := primitives)
    (by decide +kernel) (mem_primitives p) (mem_primitives q) h

/-- What can stand where a type argument starts, a datatype apart. -/
def argumentTokens : List (List Byte) :=
  textBytes ">" :: textBytes "vector(" :: primitives.map fun p => textBytes p.text

/-- What the first token of a layout tells. -/
inductive Kind where
  | primitive (p : Primitive)
  | vector
  | struct
  | enum
  deriving DecidableEq

def Kind.token : Kind → List Byte
  | .primitive p => textBytes p.text
  | .vector => textBytes "vector("
  | .struct => textBytes "struct("
  | .enum => textBytes "enum("

def kinds : List Kind := .vector :: .struct :: .enum :: primitives.map .primitive

theorem mem_kinds (kind : Kind) : kind ∈ kinds := by
  cases kind with
  | primitive p =>
    exact List.mem_cons_of_mem _ (List.mem_cons_of_mem _ (List.mem_cons_of_mem _
      (List.mem_map_of_mem (mem_primitives p))))
  | vector => decide
  | struct => decide
  | enum => decide

theorem argumentTokens_prefixFree : PrefixFree argumentTokens := by decide +kernel

theorem kinds_prefixFree : PrefixFree (kinds.map Kind.token) := by decide +kernel

theorem token_injective {k k' : Kind} (h : k.token = k'.token) : k = k' :=
  List.inj_on_of_nodup_map (f := Kind.token) (l := kinds) (by decide +kernel) (mem_kinds k)
    (mem_kinds k') h

theorem text_mem_argumentTokens (p : Primitive) : textBytes p.text ∈ argumentTokens :=
  List.mem_cons_of_mem _ (List.mem_cons_of_mem _ (List.mem_map_of_mem (mem_primitives p)))

theorem length_addressBytes (address : Address) : (addressBytes address).length = 32 := by
  rw [addressBytes, List.length_reverse, List.length_map, length_digitsLE]

theorem addressBytes_injective {a b : Address} (h : addressBytes a = addressBytes b) : a = b := by
  have hdigits := congrArg (List.map Fin.val) (List.reverse_injective h)
  rw [val_toByte_digitsLE, val_toByte_digitsLE] at hdigits
  have hvalue := congrArg (Nat.ofDigits 256) hdigits
  have hwidth : (2 : ℕ) ^ 256 = 256 ^ 32 := by norm_num
  rw [ofDigits_digitsLE (a.isLt.trans_eq hwidth), ofDigits_digitsLE (b.isLt.trans_eq hwidth)]
    at hvalue
  exact Fin.ext hvalue

/-! ### Names -/

mutual

def NamedTag : TagOver TypeTag → Prop
  | ⟨_, module, name, typeParams⟩ =>
    IsIdentifier module ∧ IsIdentifier name ∧ NamedParams typeParams

def NamedType : TypeTag → Prop
  | .primitive _ => True
  | .vector inner => NamedType inner
  | .struct inner => NamedTag inner

def NamedParams : List TypeTag → Prop
  | [] => True
  | param :: rest => NamedType param ∧ NamedParams rest

end

mutual

/-- All names are identifiers. -/
def Named : MoveTypeLayout → Prop
  | .primitive _ => True
  | .vector inner => Named inner
  | .struct type fields => NamedTag type ∧ NamedFields fields
  | .enum type variants => NamedTag type ∧ NamedVariants variants

def NamedFields : List (FieldOver MoveTypeLayout) → Prop
  | [] => True
  | ⟨name, layout⟩ :: rest => IsIdentifier name ∧ Named layout ∧ NamedFields rest

def NamedVariants : List ((String × Fin (2 ^ 16)) × List (FieldOver MoveTypeLayout)) → Prop
  | [] => True
  | ((name, _), fields) :: rest =>
    IsIdentifier name ∧ NamedFields fields ∧ NamedVariants rest

end

/-! ### Where two layouts part -/

/-- What a type argument begins with: its token, or the address of its datatype. -/
def argumentHead : TypeTag → List Byte
  | .primitive p => textBytes p.text
  | .vector _ => textBytes "vector("
  | .struct inner => addressBytes inner.address

def kindOf : MoveTypeLayout → Kind
  | .primitive p => .primitive p
  | .vector _ => .vector
  | .struct _ _ => .struct
  | .enum _ _ => .enum

/-- A field begins with its name, a colon and the token of its layout. -/
def fieldHead : FieldOver MoveTypeLayout → List Byte
  | ⟨name, layout⟩ => textBytes name ++ (textBytes ":" ++ (kindOf layout).token)

/-- The word behind a variant's tag: the name of a field, of the next variant, or the
end of the variants. -/
def wordBehind (fields : List (FieldOver MoveTypeLayout))
    (rest : List ((String × Fin (2 ^ 16)) × List (FieldOver MoveTypeLayout))) : List Byte :=
  match fields, rest with
  | ⟨name, _⟩ :: _, _ => textBytes name
  | [], ((name, _), _) :: _ => textBytes name
  | [], [] => textBytes ")"

/-- Variants begin with the first one's name, its tag and the word behind it. -/
def variantsHead :
    List ((String × Fin (2 ^ 16)) × List (FieldOver MoveTypeLayout)) → List Byte
  | [] => textBytes ")"
  | ((name, tag), fields) :: rest => textBytes name ++ (tagBytes tag ++ wordBehind fields rest)

mutual

def TagsApart : TagOver TypeTag → TagOver TypeTag → Prop
  | ⟨address, module, name, typeParams⟩, ⟨address', module', name', typeParams'⟩ =>
    address = address' → module = module' → name = name' → ParamsApart typeParams typeParams'

def TypesApart : TypeTag → TypeTag → Prop
  | .primitive _, .primitive _ => True
  | .vector inner, .vector inner' => TypesApart inner inner'
  | .struct inner, .struct inner' => TagsApart inner inner'
  | p, q => ¬ Comparable (argumentHead p) (argumentHead q)

def ParamsApart : List TypeTag → List TypeTag → Prop
  | [], [] => True
  | [], q :: _ => ¬ Comparable (textBytes ">") (argumentHead q)
  | p :: _, [] => ¬ Comparable (argumentHead p) (textBytes ">")
  | p :: ps, q :: qs => TypesApart p q ∧ (p = q → ParamsApart ps qs)

end

mutual

/-- Read side by side, the two do not part, or they part where neither can begin like
the other. -/
def ReadApart : MoveTypeLayout → MoveTypeLayout → Prop
  | .vector inner, .vector inner' => ReadApart inner inner'
  | .struct type fields, .struct type' fields' =>
    TagsApart type type' ∧
      (type = type' → FieldsApart (textBytes ")") (textBytes ")") fields fields')
  | .enum type variants, .enum type' variants' =>
    TagsApart type type' ∧ (type = type' → VariantsApart variants variants')
  | _, _ => True

/-- `behind` and `behind'` are what the words behind the two lists begin with. -/
def FieldsApart (behind behind' : List Byte) :
    List (FieldOver MoveTypeLayout) → List (FieldOver MoveTypeLayout) → Prop
  | [], [] => True
  | [], g :: _ => ¬ Comparable behind (fieldHead g)
  | f :: _, [] => ¬ Comparable (fieldHead f) behind'
  | ⟨name, layout⟩ :: fs, ⟨name', layout'⟩ :: gs =>
    name = name' →
      ReadApart layout layout' ∧ (layout = layout' → FieldsApart behind behind' fs gs)

def VariantsApart : List ((String × Fin (2 ^ 16)) × List (FieldOver MoveTypeLayout)) →
    List ((String × Fin (2 ^ 16)) × List (FieldOver MoveTypeLayout)) → Prop
  | (v, fields) :: vs, (w, fields') :: ws =>
    (v ≠ w → ¬ Comparable (variantsHead ((v, fields) :: vs)) (variantsHead ((w, fields') :: ws))) ∧
      (v = w → FieldsApart (variantsHead vs) (variantsHead ws) fields fields' ∧
        (fields = fields' → VariantsApart vs ws))
  | _, _ => True

end

/-! ### Type tags are told apart -/

/-- A word of a name up to the punctuation behind it. -/
theorem name_append {name name' : String} {c : Byte} {r r' : List Byte} (h : IsIdentifier name)
    (h' : IsIdentifier name') (hc : ¬ IdentByte c)
    (heq : textBytes name ++ c :: r = textBytes name' ++ c :: r') : name = name' ∧ r = r' := by
  obtain ⟨hwords, _, hrest⟩ := word_append (identByte_of_mem h) (identByte_of_mem h') hc hc heq
  exact ⟨textBytes_injective h h' hwords, hrest⟩

theorem colons_eq (r : List Byte) : textBytes "::" ++ r = 58 :: 58 :: r := by
  have h : textBytes "::" = [58, 58] := by decide +kernel
  rw [h]
  rfl

theorem colon_eq (r : List Byte) : textBytes ":" ++ r = 58 :: r := by
  have h : textBytes ":" = [58] := by decide +kernel
  rw [h]
  rfl

theorem less_eq (r : List Byte) : textBytes "<" ++ r = 60 :: r := by
  have h : textBytes "<" = [60] := by decide +kernel
  rw [h]
  rfl

theorem close_eq (r : List Byte) : textBytes ")" ++ r = 41 :: r := by
  have h : textBytes ")" = [41] := by decide +kernel
  rw [h]
  rfl

theorem argumentHead_begins (p : TypeTag) (r : List Byte) :
    argumentHead p <+: hashTypeTag p ++ r := by
  cases p with
  | primitive p =>
    rw [argumentHead, hashTypeTag]
    exact List.prefix_append _ r
  | vector inner =>
    rw [argumentHead, hashTypeTag, List.append_assoc]
    exact List.prefix_append ..
  | struct inner =>
    obtain ⟨address, module, name, typeParams⟩ := inner
    rw [argumentHead, hashTypeTag, hashTag, List.append_assoc]
    exact List.prefix_append ..

theorem arguments_comparable {p q : TypeTag} {r r' : List Byte}
    (h : hashTypeTag p ++ r = hashTypeTag q ++ r') :
    Comparable (argumentHead p) (argumentHead q) :=
  comparable_of_starts (argumentHead_begins p r) (h ▸ argumentHead_begins q r')

/-- An argument that begins like the end of the arguments. -/
theorem end_comparable {q : TypeTag} {r r' : List Byte}
    (h : textBytes ">" ++ r = hashTypeTag q ++ r') :
    Comparable (textBytes ">") (argumentHead q) :=
  comparable_of_starts (List.prefix_append _ r) (h ▸ argumentHead_begins q r')

mutual

theorem hashTag_append {s t : TagOver TypeTag} {r r' : List Byte} (hs : NamedTag s)
    (ht : NamedTag t) (hapart : TagsApart s t) (h : hashTag s ++ r = hashTag t ++ r') :
    s = t ∧ r = r' := by
  obtain ⟨address, module, name, typeParams⟩ := s
  obtain ⟨address', module', name', typeParams'⟩ := t
  obtain ⟨hmodule, hname, hparams⟩ := hs
  obtain ⟨hmodule', hname', hparams'⟩ := ht
  simp only [hashTag, List.append_assoc, colons_eq, less_eq, List.cons_append] at h
  obtain ⟨haddress, hpath⟩ := List.append_inj h
    ((length_addressBytes address).trans (length_addressBytes address').symm)
  obtain rfl := addressBytes_injective haddress
  obtain ⟨rfl, hmember⟩ := name_append hmodule hmodule' (by decide) hpath
  obtain ⟨rfl, harguments⟩ := name_append hname hname' (by decide) (List.cons.inj hmember).2
  obtain ⟨rfl, hrest⟩ := hashParams_append hparams hparams' (hapart rfl rfl rfl) harguments
  exact ⟨rfl, hrest⟩

theorem hashTypeTag_append {p q : TypeTag} {r r' : List Byte} (hp : NamedType p)
    (hq : NamedType q) (hapart : TypesApart p q) (h : hashTypeTag p ++ r = hashTypeTag q ++ r') :
    p = q ∧ r = r' := by
  cases p with
  | primitive p =>
    cases q with
    | primitive q =>
      rw [hashTypeTag, hashTypeTag] at h
      obtain ⟨htext, hrest⟩ := argumentTokens_prefixFree.append (text_mem_argumentTokens p)
        (text_mem_argumentTokens q) h
      exact ⟨by rw [text_injective htext], hrest⟩
    | vector inner' => exact absurd (arguments_comparable h) hapart
    | struct inner' => exact absurd (arguments_comparable h) hapart
  | vector inner =>
    cases q with
    | primitive q => exact absurd (arguments_comparable h) hapart
    | vector inner' =>
      simp only [hashTypeTag, List.append_assoc, close_eq] at h
      obtain ⟨rfl, hrest⟩ := hashTypeTag_append (p := inner) (q := inner') hp hq hapart
        (List.append_cancel_left h)
      exact ⟨rfl, (List.cons.inj hrest).2⟩
    | struct inner' => exact absurd (arguments_comparable h) hapart
  | struct inner =>
    cases q with
    | primitive q => exact absurd (arguments_comparable h) hapart
    | vector inner' => exact absurd (arguments_comparable h) hapart
    | struct inner' =>
      rw [hashTypeTag, hashTypeTag] at h
      obtain ⟨rfl, hrest⟩ := hashTag_append hp hq hapart h
      exact ⟨rfl, hrest⟩

theorem hashParams_append {ps qs : List TypeTag} {r r' : List Byte} (hps : NamedParams ps)
    (hqs : NamedParams qs) (hapart : ParamsApart ps qs)
    (h : hashParams ps ++ (textBytes ">" ++ r) = hashParams qs ++ (textBytes ">" ++ r')) :
    ps = qs ∧ r = r' := by
  cases ps with
  | nil =>
    cases qs with
    | nil => exact ⟨rfl, List.append_cancel_left h⟩
    | cons q qs =>
      rw [hashParams, hashParams, List.append_assoc] at h
      exact absurd (end_comparable h) hapart
  | cons p ps =>
    cases qs with
    | nil =>
      rw [hashParams, hashParams, List.append_assoc] at h
      exact absurd (end_comparable h.symm).symm hapart
    | cons q qs =>
      rw [hashParams, hashParams, List.append_assoc, List.append_assoc] at h
      obtain ⟨rfl, harguments⟩ := hashTypeTag_append hps.1 hqs.1 hapart.1 h
      obtain ⟨rfl, hrest⟩ := hashParams_append hps.2 hqs.2 (hapart.2 rfl) harguments
      exact ⟨rfl, hrest⟩

end

/-! ### Layouts are told apart -/

theorem comma_eq (r : List Byte) : textBytes "," ++ r = 44 :: r := by
  have h : textBytes "," = [44] := by decide +kernel
  rw [h]
  rfl

theorem hashInto_eq (layout : MoveTypeLayout) :
    ∃ rest, hashInto layout = (kindOf layout).token ++ rest := by
  cases layout with
  | primitive p => exact ⟨[], by rw [hashInto, kindOf, Kind.token, List.append_nil]⟩
  | vector inner => exact ⟨_, by rw [hashInto, kindOf, Kind.token]⟩
  | struct type fields => exact ⟨_, by rw [hashInto, kindOf, Kind.token]⟩
  | enum type variants => exact ⟨_, by rw [hashInto, kindOf, Kind.token]⟩

theorem kindOf_eq {a b : MoveTypeLayout} {r r' : List Byte}
    (h : hashInto a ++ r = hashInto b ++ r') : kindOf a = kindOf b := by
  obtain ⟨rest, heq⟩ := hashInto_eq a
  obtain ⟨rest', heq'⟩ := hashInto_eq b
  rw [heq, heq', List.append_assoc, List.append_assoc] at h
  exact token_injective (kinds_prefixFree.append (List.mem_map_of_mem (mem_kinds _))
    (List.mem_map_of_mem (mem_kinds _)) h).1

theorem fieldHead_begins (f : FieldOver MoveTypeLayout) (fs : List (FieldOver MoveTypeLayout))
    (r : List Byte) : fieldHead f <+: hashFields (f :: fs) ++ r := by
  obtain ⟨name, layout⟩ := f
  obtain ⟨rest, heq⟩ := hashInto_eq layout
  rw [fieldHead, hashFields, heq]
  simp only [List.append_assoc, List.prefix_append_right_inj]
  exact List.prefix_append ..

theorem wordBehind_begins (fields : List (FieldOver MoveTypeLayout))
    (rest : List ((String × Fin (2 ^ 16)) × List (FieldOver MoveTypeLayout))) (r : List Byte) :
    wordBehind fields rest <+:
      hashFields fields ++ (hashVariants rest ++ (textBytes ")" ++ r)) := by
  cases fields with
  | nil =>
    cases rest with
    | nil =>
      rw [hashFields, hashVariants]
      exact List.prefix_append ..
    | cons variant rest =>
      obtain ⟨⟨name, tag⟩, fields⟩ := variant
      rw [hashFields, hashVariants]
      simp only [List.append_assoc, List.nil_append]
      exact List.prefix_append ..
  | cons field fields =>
    obtain ⟨name, layout⟩ := field
    rw [hashFields]
    simp only [List.append_assoc]
    exact List.prefix_append ..

theorem variantsHead_begins
    (variants : List ((String × Fin (2 ^ 16)) × List (FieldOver MoveTypeLayout)))
    (r : List Byte) :
    variantsHead variants <+: hashVariants variants ++ (textBytes ")" ++ r) := by
  cases variants with
  | nil => exact List.prefix_append ..
  | cons variant rest =>
    obtain ⟨⟨name, tag⟩, fields⟩ := variant
    rw [variantsHead, hashVariants]
    simp only [List.append_assoc, List.prefix_append_right_inj]
    exact wordBehind_begins fields rest r

/-- The low byte of a variant's tag, and the high one. -/
theorem tagBytes_eq (tag : Fin (2 ^ 16)) (r : List Byte) :
    tagBytes tag ++ r = toByte (tag.val % 256) :: toByte (tag.val / 256 % 256) :: r := rfl

theorem val_highByte (tag : Fin (2 ^ 16)) : (toByte (tag.val / 256 % 256)).val = tag.val / 256 := by
  have hval : (toByte (tag.val / 256 % 256)).val = tag.val / 256 % 256 % 256 := rfl
  have := tag.isLt
  omega

theorem tag_eq {tag tag' : Fin (2 ^ 16)} (hlow : toByte (tag.val % 256) = toByte (tag'.val % 256))
    (hhigh : toByte (tag.val / 256 % 256) = toByte (tag'.val / 256 % 256)) : tag = tag' := by
  have hlow : tag.val % 256 % 256 = tag'.val % 256 % 256 := congrArg Fin.val hlow
  have hhigh := congrArg Fin.val hhigh
  rw [val_highByte, val_highByte] at hhigh
  exact Fin.ext (by omega)

theorem close_ne_name {name : String} {r t : List Byte} (h : IsIdentifier name) :
    41 :: r ≠ textBytes name ++ t := by
  intro heq
  obtain ⟨b, rest, hname, hb⟩ := textBytes_eq_cons h
  rw [hname, List.cons_append] at heq
  exact absurd ((List.cons.inj heq).1 ▸ hb) (by decide)

mutual

theorem hashInto_append {a b : MoveTypeLayout} {r r' : List Byte} (ha : Named a) (hb : Named b)
    (hapart : ReadApart a b) (h : hashInto a ++ r = hashInto b ++ r') : a = b ∧ r = r' := by
  have hkind := kindOf_eq h
  cases a with
  | primitive p =>
    cases b with
    | primitive q =>
      obtain rfl := Kind.primitive.inj hkind
      exact ⟨rfl, List.append_cancel_left h⟩
    | _ => cases hkind
  | vector inner =>
    cases b with
    | vector inner' =>
      simp only [hashInto, List.append_assoc, close_eq] at h
      obtain ⟨rfl, hrest⟩ := hashInto_append (a := inner) (b := inner') ha hb hapart
        (List.append_cancel_left h)
      exact ⟨rfl, (List.cons.inj hrest).2⟩
    | _ => cases hkind
  | struct type fields =>
    cases b with
    | struct type' fields' =>
      simp only [hashInto, List.append_assoc] at h
      obtain ⟨rfl, hfields⟩ := hashTag_append ha.1 hb.1 hapart.1 (List.append_cancel_left h)
      obtain ⟨rfl, hrest⟩ := hashFields_append ha.2 hb.2 (hapart.2 rfl)
        (List.prefix_append _ r) (List.prefix_append _ r') hfields
      exact ⟨rfl, List.append_cancel_left hrest⟩
    | _ => cases hkind
  | enum type variants =>
    cases b with
    | enum type' variants' =>
      simp only [hashInto, List.append_assoc] at h
      obtain ⟨rfl, hvariants⟩ := hashTag_append ha.1 hb.1 hapart.1 (List.append_cancel_left h)
      obtain ⟨rfl, hrest⟩ := hashVariants_append ha.2 hb.2 (hapart.2 rfl) hvariants
      exact ⟨rfl, hrest⟩
    | _ => cases hkind

theorem hashFields_append {fs gs : List (FieldOver MoveTypeLayout)}
    {behind behind' t t' : List Byte} (hfs : NamedFields fs) (hgs : NamedFields gs)
    (hapart : FieldsApart behind behind' fs gs) (ht : behind <+: t) (ht' : behind' <+: t')
    (h : hashFields fs ++ t = hashFields gs ++ t') : fs = gs ∧ t = t' := by
  cases fs with
  | nil =>
    cases gs with
    | nil => exact ⟨rfl, h⟩
    | cons g gs =>
      have hfield := fieldHead_begins g gs t'
      rw [← h] at hfield
      exact absurd (comparable_of_starts ht hfield) hapart
  | cons f fs =>
    cases gs with
    | nil =>
      have hfield := fieldHead_begins f fs t
      rw [h] at hfield
      exact absurd (comparable_of_starts hfield ht') hapart
    | cons g gs =>
      obtain ⟨name, layout⟩ := f
      obtain ⟨name', layout'⟩ := g
      simp only [hashFields, List.append_assoc, colon_eq, comma_eq, List.cons_append] at h
      obtain ⟨rfl, hlayouts⟩ := name_append hfs.1 hgs.1 (by decide) h
      obtain ⟨hlayout, hmore⟩ := hapart rfl
      obtain ⟨rfl, hcommas⟩ := hashInto_append hfs.2.1 hgs.2.1 hlayout hlayouts
      obtain ⟨rfl, htails⟩ := hashFields_append hfs.2.2 hgs.2.2 (hmore rfl) ht ht'
        (List.cons.inj hcommas).2
      exact ⟨rfl, htails⟩

theorem hashVariants_append
    {vs ws : List ((String × Fin (2 ^ 16)) × List (FieldOver MoveTypeLayout))} {r r' : List Byte}
    (hvs : NamedVariants vs) (hws : NamedVariants ws) (hapart : VariantsApart vs ws)
    (h : hashVariants vs ++ (textBytes ")" ++ r) = hashVariants ws ++ (textBytes ")" ++ r')) :
    vs = ws ∧ r = r' := by
  cases vs with
  | nil =>
    cases ws with
    | nil => exact ⟨rfl, List.append_cancel_left h⟩
    | cons w ws =>
      obtain ⟨⟨name, tag⟩, fields⟩ := w
      simp only [hashVariants, List.append_assoc, List.nil_append, close_eq] at h
      exact absurd h (close_ne_name hws.1)
  | cons v vs =>
    cases ws with
    | nil =>
      obtain ⟨⟨name, tag⟩, fields⟩ := v
      simp only [hashVariants, List.append_assoc, List.nil_append, close_eq] at h
      exact absurd h.symm (close_ne_name hvs.1)
    | cons w ws =>
      have hboth := comparable_of_starts (variantsHead_begins (v :: vs) r)
        (h ▸ variantsHead_begins (w :: ws) r')
      obtain ⟨v, fields⟩ := v
      obtain ⟨w, fields'⟩ := w
      by_cases hsame : v = w
      · subst hsame
        obtain ⟨name, tag⟩ := v
        obtain ⟨hfieldsApart, hmore⟩ := hapart.2 rfl
        simp only [hashVariants, List.append_assoc] at h
        have htails := List.append_cancel_left (List.append_cancel_left h)
        obtain ⟨rfl, hvariants⟩ := hashFields_append hvs.2.1 hws.2.1 hfieldsApart
          (variantsHead_begins vs r) (variantsHead_begins ws r') htails
        obtain ⟨rfl, hrest⟩ := hashVariants_append hvs.2.2 hws.2.2 (hmore rfl) hvariants
        exact ⟨rfl, hrest⟩
      · exact absurd hboth (hapart.1 hsame)

end

/-! ### A layout and itself -/

mutual

theorem tagsApart_self (s : TagOver TypeTag) : TagsApart s s := by
  obtain ⟨address, module, name, typeParams⟩ := s
  exact fun _ _ _ => paramsApart_self typeParams

theorem typesApart_self (p : TypeTag) : TypesApart p p := by
  cases p with
  | primitive p => trivial
  | vector inner => exact typesApart_self inner
  | struct inner => exact tagsApart_self inner

theorem paramsApart_self (ps : List TypeTag) : ParamsApart ps ps := by
  cases ps with
  | nil => trivial
  | cons p ps => exact ⟨typesApart_self p, fun _ => paramsApart_self ps⟩

end

mutual

theorem readApart_self (a : MoveTypeLayout) : ReadApart a a := by
  cases a with
  | primitive p => trivial
  | vector inner => exact readApart_self inner
  | struct type fields => exact ⟨tagsApart_self type, fun _ => fieldsApart_self _ fields⟩
  | enum type variants => exact ⟨tagsApart_self type, fun _ => variantsApart_self variants⟩

theorem fieldsApart_self (behind : List Byte) (fs : List (FieldOver MoveTypeLayout)) :
    FieldsApart behind behind fs fs := by
  cases fs with
  | nil => trivial
  | cons f fs =>
    obtain ⟨name, layout⟩ := f
    exact fun _ => ⟨readApart_self layout, fun _ => fieldsApart_self behind fs⟩

theorem variantsApart_self
    (vs : List ((String × Fin (2 ^ 16)) × List (FieldOver MoveTypeLayout))) :
    VariantsApart vs vs := by
  cases vs with
  | nil => trivial
  | cons v vs =>
    obtain ⟨v, fields⟩ := v
    exact ⟨fun hne => absurd rfl hne,
      fun _ => ⟨fieldsApart_self _ fields, fun _ => variantsApart_self vs⟩⟩

end

/-- Two layouts with the same bytes are the same layout exactly when they nowhere part
where one can begin like the other. -/
theorem same_bytes_iff (a b : MoveTypeLayout) (ha : Named a) (hb : Named b)
    (h : hashInto a = hashInto b) : a = b ↔ ReadApart a b := by
  constructor
  · rintro rfl
    exact readApart_self a
  · intro hapart
    have happend : hashInto a ++ [] = hashInto b ++ [] := by rw [h]
    exact (hashInto_append ha hb hapart happend).1

section sample

/-- A pool over these type arguments, with a mode. -/
def poolOver (typeParams : List TypeTag) : MoveTypeLayout :=
  .struct ⟨1, "pool", "Pool", typeParams⟩
    [⟨"fee_rate", .primitive .u64⟩,
      ⟨"mode", .enum ⟨1, "pool", "Mode", []⟩ [(("Open", 0), []), (("Paused", 1), [])]⟩]

theorem named_poolOver {typeParams : List TypeTag} (h : NamedParams typeParams) :
    Named (poolOver typeParams) := by
  have hmode : Named (.enum ⟨1, "pool", "Mode", []⟩ [(("Open", 0), []), (("Paused", 1), [])]) :=
    ⟨⟨by decide +kernel, by decide +kernel, trivial⟩,
      ⟨by decide +kernel, trivial, by decide +kernel, trivial, trivial⟩⟩
  exact ⟨⟨by decide +kernel, by decide +kernel, h⟩,
    ⟨by decide +kernel, trivial, by decide +kernel, hmode, trivial⟩⟩

def coinType (address : Address) (module : String) : TypeTag :=
  .struct ⟨address, module, "COIN", []⟩

theorem splitAddress_lt : 0x7538 * 2 ^ 240 < 2 ^ 256 := by decide

/-- An address that begins with the text of a primitive. -/
def splitPool : MoveTypeLayout := poolOver [coinType ⟨0x7538 * 2 ^ 240, splitAddress_lt⟩ "mycoin"]

/-- What is left of that address stands here together with the start of the module's
name as another address. -/
def joinedPool : MoveTypeLayout := poolOver [.primitive .u8, coinType 0x6d79 "coin"]

theorem pools_same_bytes : hashInto splitPool = hashInto joinedPool := by decide +kernel

theorem pools_differ : splitPool ≠ joinedPool := by
  intro hsame
  have hlength := congrArg (fun tag : StructTag => tag.typeParams.length)
    (MoveTypeLayout.struct.inj hsame).1
  exact absurd hlength (by decide)

/-- The two pools part where an address begins like a primitive. -/
theorem same_bytes_pools : ¬ ReadApart splitPool joinedPool := by
  have hsplit : Named splitPool :=
    named_poolOver ⟨⟨by decide +kernel, by decide +kernel, trivial⟩, trivial⟩
  have hjoined : Named joinedPool :=
    named_poolOver ⟨trivial, ⟨by decide +kernel, by decide +kernel, trivial⟩, trivial⟩
  exact fun hapart =>
    pools_differ ((same_bytes_iff splitPool joinedPool hsplit hjoined pools_same_bytes).mpr hapart)

theorem split_address_same_bytes :
    ¬ ∀ a b : MoveTypeLayout, hashInto a = hashInto b → a = b :=
  fun h => pools_differ (h splitPool joinedPool pools_same_bytes)

end sample

end LayoutFingerprint
