import Birdai.Resolve.Fingerprint

/-!
# Layouts without ambiguous parts

A layout on its own is plain when no address of a type argument and no variant tag
can read as something else. Two plain layouts part nowhere else.
-/

namespace LayoutFingerprint

open WideArith ByteCodecs MoveTypes PrefixCodes

/-- The address of a type argument does not begin like another argument, nor like the
end of the arguments. -/
def PlainAddress (address : Address) : Prop :=
  ∀ token ∈ argumentTokens, ¬ token <+: addressBytes address

theorem plainAddress_iff {address : Address} :
    (argumentTokens.all fun token => !token.isPrefixOf (addressBytes address)) = true ↔
      PlainAddress address := by
  simp only [List.all_eq_true, Bool.not_eq_true', ← Bool.not_eq_true, List.isPrefixOf_iff_prefix,
    PlainAddress]

instance : DecidablePred PlainAddress := fun _ => decidable_of_iff _ plainAddress_iff

/-- The high byte of a variant tag is none that a name, a field or the end of the
variants could have there. -/
def PlainVariant (tag : Fin (2 ^ 16)) : Prop :=
  identCode (tag.val / 256) = false ∧ tag.val / 256 ≠ 41 ∧ tag.val / 256 ≠ 58

mutual

def PlainTag : TagOver TypeTag → Prop
  | ⟨_, module, name, typeParams⟩ =>
    IsIdentifier module ∧ IsIdentifier name ∧ PlainParams typeParams

def PlainType : TypeTag → Prop
  | .primitive _ => True
  | .vector inner => PlainType inner
  | .struct inner => PlainAddress inner.address ∧ PlainTag inner

def PlainParams : List TypeTag → Prop
  | [] => True
  | param :: rest => PlainType param ∧ PlainParams rest

end

mutual

/-- All names are identifiers, and no address of a type argument and no variant tag
reads as something else. -/
def Plain : MoveTypeLayout → Prop
  | .primitive _ => True
  | .vector inner => Plain inner
  | .struct type fields => PlainTag type ∧ PlainFields fields
  | .enum type variants => PlainTag type ∧ PlainVariants variants

def PlainFields : List (FieldOver MoveTypeLayout) → Prop
  | [] => True
  | ⟨name, layout⟩ :: rest => IsIdentifier name ∧ Plain layout ∧ PlainFields rest

def PlainVariants : List ((String × Fin (2 ^ 16)) × List (FieldOver MoveTypeLayout)) → Prop
  | [] => True
  | ((name, tag), fields) :: rest =>
    IsIdentifier name ∧ PlainVariant tag ∧ PlainFields fields ∧ PlainVariants rest

end

/-! ### Plain names -/

mutual

theorem PlainTag.named {s : TagOver TypeTag} (h : PlainTag s) : NamedTag s := by
  obtain ⟨address, module, name, typeParams⟩ := s
  obtain ⟨hmodule, hname, hparams⟩ := h
  exact ⟨hmodule, hname, PlainParams.named hparams⟩

theorem PlainType.named {p : TypeTag} (h : PlainType p) : NamedType p := by
  cases p with
  | primitive p => trivial
  | vector inner => exact PlainType.named (p := inner) h
  | struct inner => exact PlainTag.named h.2

theorem PlainParams.named {ps : List TypeTag} (h : PlainParams ps) : NamedParams ps := by
  cases ps with
  | nil => trivial
  | cons p ps => exact ⟨PlainType.named h.1, PlainParams.named h.2⟩

end

mutual

theorem Plain.named {a : MoveTypeLayout} (h : Plain a) : Named a := by
  cases a with
  | primitive p => trivial
  | vector inner => exact Plain.named (a := inner) h
  | struct type fields => exact ⟨h.1.named, PlainFields.named h.2⟩
  | enum type variants => exact ⟨h.1.named, PlainVariants.named h.2⟩

theorem PlainFields.named {fs : List (FieldOver MoveTypeLayout)} (h : PlainFields fs) :
    NamedFields fs := by
  cases fs with
  | nil => trivial
  | cons f fs =>
    obtain ⟨name, layout⟩ := f
    exact ⟨h.1, Plain.named h.2.1, PlainFields.named h.2.2⟩

theorem PlainVariants.named
    {vs : List ((String × Fin (2 ^ 16)) × List (FieldOver MoveTypeLayout))}
    (h : PlainVariants vs) : NamedVariants vs := by
  cases vs with
  | nil => trivial
  | cons v vs =>
    obtain ⟨⟨name, tag⟩, fields⟩ := v
    exact ⟨h.1, PlainFields.named h.2.2.1, PlainVariants.named h.2.2.2⟩

end

/-! ### Plain type tags part readably -/

theorem token_not_comparable {token : List Byte} {address : Address}
    (htoken : token ∈ argumentTokens) (hplain : PlainAddress address) :
    ¬ Comparable token (addressBytes address) := by
  intro h
  have hlen : ∀ t ∈ argumentTokens, t.length ≤ 32 := by decide +kernel
  rcases h with h | h
  · exact hplain token htoken h
  · have hsame := h.eq_of_length_le ((hlen token htoken).trans (length_addressBytes address).ge)
    exact hplain token htoken (hsame ▸ List.prefix_refl _)

theorem vector_mem_argumentTokens : textBytes "vector(" ∈ argumentTokens :=
  List.mem_cons_of_mem _ List.mem_cons_self

theorem vector_ne_text (p : Primitive) : textBytes "vector(" ≠ textBytes p.text := by
  cases p <;> decide +kernel

theorem vector_not_comparable (p : Primitive) :
    ¬ Comparable (textBytes "vector(") (textBytes p.text) := fun h =>
  vector_ne_text p (argumentTokens_prefixFree.eq_of_comparable vector_mem_argumentTokens
    (text_mem_argumentTokens p) h)

/-- No plain argument begins like the end of the arguments. -/
theorem end_not_comparable {q : TypeTag} (hq : PlainType q) :
    ¬ Comparable (textBytes ">") (argumentHead q) := by
  intro h
  cases q with
  | primitive p =>
    have hsame := argumentTokens_prefixFree.eq_of_comparable List.mem_cons_self
      (text_mem_argumentTokens p) h
    revert hsame
    cases p <;> decide +kernel
  | vector inner =>
    have hsame := argumentTokens_prefixFree.eq_of_comparable List.mem_cons_self
      vector_mem_argumentTokens h
    revert hsame
    decide +kernel
  | struct inner => exact token_not_comparable List.mem_cons_self hq.1 h

mutual

theorem PlainTag.apart {s t : TagOver TypeTag} (hs : PlainTag s) (ht : PlainTag t) :
    TagsApart s t := by
  obtain ⟨address, module, name, typeParams⟩ := s
  obtain ⟨address', module', name', typeParams'⟩ := t
  exact fun _ _ _ => PlainParams.apart hs.2.2 ht.2.2

theorem PlainType.apart {p q : TypeTag} (hp : PlainType p) (hq : PlainType q) :
    TypesApart p q := by
  cases p with
  | primitive p =>
    cases q with
    | primitive q => trivial
    | vector inner' => exact fun h => vector_not_comparable p h.symm
    | struct inner' => exact token_not_comparable (text_mem_argumentTokens p) hq.1
  | vector inner =>
    cases q with
    | primitive q => exact vector_not_comparable q
    | vector inner' => exact PlainType.apart (p := inner) (q := inner') hp hq
    | struct inner' => exact token_not_comparable vector_mem_argumentTokens hq.1
  | struct inner =>
    cases q with
    | primitive q =>
      exact fun h => token_not_comparable (text_mem_argumentTokens q) hp.1 h.symm
    | vector inner' => exact fun h => token_not_comparable vector_mem_argumentTokens hp.1 h.symm
    | struct inner' => exact PlainTag.apart hp.2 hq.2

theorem PlainParams.apart {ps qs : List TypeTag} (hps : PlainParams ps) (hqs : PlainParams qs) :
    ParamsApart ps qs := by
  cases ps with
  | nil =>
    cases qs with
    | nil => trivial
    | cons q qs => exact end_not_comparable hqs.1
  | cons p ps =>
    cases qs with
    | nil => exact fun h => end_not_comparable hps.1 h.symm
    | cons q qs => exact ⟨PlainType.apart hps.1 hqs.1, fun _ => PlainParams.apart hps.2 hqs.2⟩

end

/-! ### Plain layouts part readably -/

/-- Every token starts with a letter. -/
theorem token_head (kind : Kind) : ∃ b rest, kind.token = b :: rest ∧ IdentByte b := by
  have hall : ∀ k ∈ kinds, (k.token.head?.any fun b => identCode b.val) = true := by
    decide +kernel
  have hhead := hall kind (mem_kinds kind)
  cases htoken : kind.token with
  | nil =>
    rw [htoken] at hhead
    cases hhead
  | cons b rest =>
    rw [htoken] at hhead
    exact ⟨b, rest, rfl, hhead⟩

theorem PlainVariant.high {tag : Fin (2 ^ 16)} (h : PlainVariant tag) :
    ¬ IdentByte (toByte (tag.val / 256 % 256)) ∧ toByte (tag.val / 256 % 256) ≠ 41 ∧
      toByte (tag.val / 256 % 256) ≠ 58 := by
  obtain ⟨hident, hclose, hcolon⟩ := h
  refine ⟨?_, fun hz => hclose ?_, fun hz => hcolon ?_⟩
  · rw [IdentByte, val_highByte, hident]
    decide
  · rw [← val_highByte tag, hz]
    rfl
  · rw [← val_highByte tag, hz]
    rfl

theorem fieldHead_eq (name : String) (layout : MoveTypeLayout) :
    ∃ b rest, IdentByte b ∧ fieldHead ⟨name, layout⟩ = textBytes name ++ 58 :: b :: rest := by
  obtain ⟨b, rest, htoken, hb⟩ := token_head (kindOf layout)
  exact ⟨b, rest, hb, by rw [fieldHead, colon_eq, htoken]⟩

/-- What variants begin with is nothing a field begins with. -/
theorem variants_not_field
    {vs : List ((String × Fin (2 ^ 16)) × List (FieldOver MoveTypeLayout))}
    (hvs : PlainVariants vs) {name : String} (hname : IsIdentifier name)
    (layout : MoveTypeLayout) : ¬ Comparable (variantsHead vs) (fieldHead ⟨name, layout⟩) := by
  intro h
  obtain ⟨r, s, heq⟩ := h.exists_append
  obtain ⟨b, rest, hb, hhead⟩ := fieldHead_eq name layout
  rw [hhead, List.append_assoc] at heq
  cases vs with
  | nil =>
    rw [variantsHead, close_eq] at heq
    exact close_ne_name hname heq
  | cons v vs =>
    obtain ⟨⟨variant, tag⟩, fields⟩ := v
    obtain ⟨hvariant, htag, _⟩ := hvs
    rw [variantsHead, List.append_assoc, List.append_assoc, tagBytes_eq] at heq
    exact marked_ne (identByte_of_mem hvariant) (identByte_of_mem hname) htag.high.1 (by decide)
      htag.high.2.2 hb heq

/-- Behind a tag stands a name or the end of the variants. -/
theorem wordBehind_ne {fields : List (FieldOver MoveTypeLayout)}
    {rest : List ((String × Fin (2 ^ 16)) × List (FieldOver MoveTypeLayout))}
    (hfields : PlainFields fields) (hrest : PlainVariants rest) {hi : Byte}
    (hhi : ¬ IdentByte hi ∧ hi ≠ 41) (r s : List Byte) :
    wordBehind fields rest ++ r ≠ hi :: s := by
  have named : ∀ {name : String}, IsIdentifier name → textBytes name ++ r ≠ hi :: s := by
    intro name hname heq
    obtain ⟨b, more, hcons, hb⟩ := textBytes_eq_cons hname
    rw [hcons, List.cons_append] at heq
    exact hhi.1 ((List.cons.inj heq).1 ▸ hb)
  cases fields with
  | nil =>
    cases rest with
    | nil =>
      rw [wordBehind, close_eq]
      exact fun heq => hhi.2 (List.cons.inj heq).1.symm
    | cons v rest =>
      obtain ⟨⟨name, tag⟩, fields⟩ := v
      exact named hrest.1
  | cons f fields =>
    obtain ⟨name, layout⟩ := f
    exact named hfields.1

/-- Plain variants that begin alike begin with the same name and tag. -/
theorem variants_same_head {v w : String × Fin (2 ^ 16)}
    {fields fields' : List (FieldOver MoveTypeLayout)}
    {vs ws : List ((String × Fin (2 ^ 16)) × List (FieldOver MoveTypeLayout))}
    (hvs : PlainVariants ((v, fields) :: vs)) (hws : PlainVariants ((w, fields') :: ws))
    (h : Comparable (variantsHead ((v, fields) :: vs)) (variantsHead ((w, fields') :: ws))) :
    v = w := by
  obtain ⟨name, tag⟩ := v
  obtain ⟨name', tag'⟩ := w
  obtain ⟨hname, htag, hfields, hvs⟩ := hvs
  obtain ⟨hname', htag', hfields', hws⟩ := hws
  obtain ⟨r, s, heq⟩ := h.exists_append
  simp only [variantsHead, List.append_assoc, tagBytes_eq] at heq
  obtain ⟨hnames, hlow, hhigh, _⟩ := marked_append (identByte_of_mem hname)
    (identByte_of_mem hname') htag.high.1 htag'.high.1
    (wordBehind_ne hfields hvs ⟨htag'.high.1, htag'.high.2.1⟩ r)
    (wordBehind_ne hfields' hws ⟨htag.high.1, htag.high.2.1⟩ s) heq
  rw [textBytes_injective hname hname' hnames, tag_eq hlow hhigh]

mutual

theorem Plain.readApart {a b : MoveTypeLayout} (ha : Plain a) (hb : Plain b) :
    ReadApart a b := by
  cases a with
  | primitive p => cases b <;> trivial
  | vector inner =>
    cases b with
    | vector inner' => exact Plain.readApart (a := inner) (b := inner') ha hb
    | _ => trivial
  | struct type fields =>
    cases b with
    | struct type' fields' =>
      have hnone : PlainVariants [] := trivial
      exact ⟨ha.1.apart hb.1, fun _ => PlainFields.apart ha.2 hb.2 hnone hnone⟩
    | _ => trivial
  | enum type variants =>
    cases b with
    | enum type' variants' =>
      exact ⟨ha.1.apart hb.1, fun _ => PlainVariants.apart ha.2 hb.2⟩
    | _ => trivial
termination_by structural a

theorem PlainFields.apart {fs gs : List (FieldOver MoveTypeLayout)}
    {vs ws : List ((String × Fin (2 ^ 16)) × List (FieldOver MoveTypeLayout))}
    (hfs : PlainFields fs) (hgs : PlainFields gs) (hvs : PlainVariants vs)
    (hws : PlainVariants ws) : FieldsApart (variantsHead vs) (variantsHead ws) fs gs := by
  cases fs with
  | nil =>
    cases gs with
    | nil => trivial
    | cons g gs =>
      obtain ⟨name, layout⟩ := g
      exact variants_not_field hvs hgs.1 layout
  | cons f fs =>
    obtain ⟨name, layout⟩ := f
    cases gs with
    | nil => exact fun h => variants_not_field hws hfs.1 layout h.symm
    | cons g gs =>
      obtain ⟨name', layout'⟩ := g
      exact fun _ => ⟨Plain.readApart hfs.2.1 hgs.2.1,
        fun _ => PlainFields.apart hfs.2.2 hgs.2.2 hvs hws⟩
termination_by structural fs

theorem PlainVariants.apart
    {vs ws : List ((String × Fin (2 ^ 16)) × List (FieldOver MoveTypeLayout))}
    (hvs : PlainVariants vs) (hws : PlainVariants ws) : VariantsApart vs ws := by
  cases vs with
  | nil => cases ws <;> trivial
  | cons v vs =>
    cases ws with
    | nil => trivial
    | cons w ws =>
      obtain ⟨v, fields⟩ := v
      obtain ⟨w, fields'⟩ := w
      constructor
      · exact fun hne hboth => hne (variants_same_head hvs hws hboth)
      · intro _
        obtain ⟨name, tag⟩ := v
        obtain ⟨name', tag'⟩ := w
        exact ⟨PlainFields.apart hvs.2.2.1 hws.2.2.1 hvs.2.2.2 hws.2.2.2,
          fun _ => PlainVariants.apart hvs.2.2.2 hws.2.2.2⟩
termination_by structural vs

end

/-- Layouts without ambiguous parts are told apart by their bytes. -/
theorem plain_layouts_told_apart (a b : MoveTypeLayout) (ha : Plain a) (hb : Plain b)
    (h : hashInto a = hashInto b) : a = b := by
  have happend : hashInto a ++ [] = hashInto b ++ [] := by rw [h]
  exact (hashInto_append ha.named hb.named (ha.readApart hb) happend).1

end LayoutFingerprint
