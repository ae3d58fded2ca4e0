import Generics.Proofs.Alias.Orderly
import Generics.Proofs.Ty.Canonical

/-!
# Printed applications taken apart

An applied name is split at the commas of its print, with an eye on nothing but brackets and arrows. If
the print was made from regions and from types that are read back, the parts come out as they were
printed: every bracket of a printed type is closed in it, all of its commas are in brackets, and it has no
blanks at its ends that could be trimmed.

## Main results

* `Ty.Spellable.tight`: a printed type has no blanks at its ends;
* `Text.splitTopLevelChars_commaSep`: a list of parts is split where it was put together;
* `Alias.splitApplication_render`: a printed application is split into its name, its printed regions and
  its printed arguments.
-/

namespace Generics

namespace Text

/-! ## Texts without blanks at their ends -/

/-- The text begins and ends with characters that are no blanks. -/
structure Tight (cs : List Char) : Prop where
  first : ∃ c rest, cs = c :: rest ∧ isBlank c = false
  last : ∃ front c, cs = front ++ [c] ∧ isBlank c = false

variable {cs ds : List Char}

theorem Tight.ne_nil (h : Tight cs) : cs ≠ [] := by
  obtain ⟨c, rest, rfl, -⟩ := h.first
  exact List.cons_ne_nil c rest

/-- A text with no blanks at all has none at its ends. -/
theorem tight_of_all (hne : cs ≠ []) (h : ∀ c ∈ cs, isBlank c = false) : Tight cs where
  first := by
    obtain ⟨c, rest, rfl⟩ := List.exists_cons_of_ne_nil hne
    exact ⟨c, rest, rfl, h c List.mem_cons_self⟩
  last := by
    obtain ⟨front, c, rfl⟩ := (List.eq_nil_or_concat' cs).resolve_left hne
    exact ⟨front, c, rfl, h c (by simp)⟩

/-- Only the ends of a text matter. -/
theorem Tight.append (h : Tight cs) (between : List Char) (h' : Tight ds) :
    Tight (cs ++ (between ++ ds)) := by
  obtain ⟨c, rest, rfl, hc⟩ := h.first
  obtain ⟨front, d, rfl, hd⟩ := h'.last
  exact ⟨⟨c, _, rfl, hc⟩, ⟨c :: rest ++ (between ++ front), d, by simp, hd⟩⟩

/-- A text with no blanks at its ends is left as it is by trimming. -/
theorem Tight.trimChars_eq (h : Tight cs) : trimChars cs = cs := by
  obtain ⟨c, rest, hfirst, hc⟩ := h.first
  obtain ⟨front, d, hlast, hd⟩ := h.last
  have hleft : cs.dropWhile isBlank = cs := by
    rw [hfirst, List.dropWhile_cons_of_neg (by simp [hc])]
  have hright : cs.reverse.dropWhile isBlank = cs.reverse := by
    rw [hlast, List.reverse_concat, List.dropWhile_cons_of_neg (by simp [hd])]
  rw [trimChars, hleft, hright, List.reverse_reverse]

/-! ## Lists of parts -/

/-- The parts of a list with commas and blanks between them. -/
theorem commaSep_eq_intercalate (parts : List (List Char)) :
    commaSep parts = [',', ' '].intercalate parts := by
  induction parts with
  | nil => rfl
  | cons part parts ih =>
    cases parts with
    | nil => simp [commaSep]
    | cons next parts => rw [commaSep, joinWith_cons_cons, ← commaSep, ih, List.intercalate_cons_cons]

/-- A part of a list stands for itself: it has no blanks at its ends, all of its brackets are closed, and
all of its commas are in brackets. -/
structure IsPart (cs : List Char) : Prop where
  tight : Tight cs
  sealed : isSealed cs = true

/-- A list of texts with no blanks at their ends has none at its ends. -/
theorem tight_commaSep {parts : List (List Char)} (hne : parts ≠ []) (h : ∀ part ∈ parts, Tight part) :
    Tight (commaSep parts) := by
  induction parts with
  | nil => exact absurd rfl hne
  | cons part parts ih =>
    obtain ⟨hpart, hparts⟩ := List.forall_mem_cons.mp h
    cases parts with
    | nil => exact hpart
    | cons next parts =>
      rw [commaSep, joinWith_cons_cons, List.append_assoc]
      exact hpart.append _ (ih (List.cons_ne_nil _ _) hparts)

/-- A list of parts is split where it was put together. -/
theorem splitTopLevelChars_commaSep {parts : List (List Char)} (hne : parts ≠ [])
    (h : ∀ part ∈ parts, IsPart part) : splitTopLevelChars ',' (commaSep parts) = parts := by
  obtain ⟨first, rest, rfl⟩ := List.exists_cons_of_ne_nil hne
  have hblank (cs : List Char) : trimChars (' ' :: cs) = trimChars cs := by
    rw [trimChars, List.dropWhile_cons_of_pos rfl, ← trimChars]
  have htrim : (first :: rest).map trimChars = first :: rest :=
    (List.map_congr_left fun part hpart => (h part hpart).tight.trimChars_eq).trans (List.map_id' _)
  rw [splitTopLevelChars, commaSep_eq_intercalate,
    partsAtDepth_intercalate fun part hpart => (h part hpart).sealed]
  simpa [Function.comp_def, hblank] using htrim

end Text

open Text

/-! ## Names and regions -/

namespace Alias

/-- A path has no blanks. -/
theorem isBlank_of_mem_path {cs : List Char} (h : isPath cs = true) {c : Char} (hc : c ∈ cs) :
    isBlank c = false := by
  have hkind := List.all_eq_true.mp (all_isPathChar_of_isPath h) c hc
  by_cases hcolon : c = ':'
  · subst hcolon
    rfl
  · exact Token.isBlank_of_isNameChar (isNameChar_of_isPathChar hkind hcolon)

/-- A path has no blanks at its ends. -/
theorem tight_of_isPath {cs : List Char} (h : isPath cs = true) : Tight cs := by
  refine tight_of_all ?_ fun c => isBlank_of_mem_path h
  rintro rfl
  cases h

/-- A name in which colons stand in pairs is a path. -/
theorem isPath_of_isIdent {cs : List Char} (h : Token.isIdent cs = true) : isPath cs = true := by
  cases cs with
  | nil => cases h
  | cons c cs =>
    rw [Token.isIdent, Bool.and_eq_true] at h
    rw [isPath, isPathChar_eq_isWordChar, all_isWordChar_of_isNameTail h.2, Bool.and_true]
    have hstart := h.1
    simp only [Token.isNameStart, isPathStart, Bool.or_eq_true] at hstart ⊢
    exact hstart.imp_left .inl

end Alias

namespace Token

/-- A region has no blanks at its ends. -/
theorem tight_of_isRegion {cs : List Char} (h : isRegion cs = true) : Tight cs := by
  unfold isRegion at h
  split at h
  · rename_i c cs
    refine tight_of_all (List.cons_ne_nil _ _) fun d hd => ?_
    rcases List.mem_cons.mp hd with rfl | hd
    · rfl
    · exact isBlank_of_isNameChar (List.all_eq_true.mp h d hd)
  · cases h

end Token

/-! ## Printed types -/

namespace Ty

/-- A numeral has no blanks at its ends. -/
theorem tight_decimal (n : Nat) : Tight (decimal n) :=
  tight_of_all (decimal_ne_nil n) fun _ hc => (Token.kinds_of_isDigit (isDigit_of_mem_decimal hc)).2.1

/-- The characters of a name with arguments. -/
theorem chars_named {name : String} {regions : List Region} {args : List Ty}
    (h : regions.map Region.argChars ++ args.map chars ≠ []) :
    (named name regions args).chars =
      name.toList ++ '<' :: commaSep (regions.map Region.argChars ++ args.map chars) ++ ['>'] := by
  rw [chars, charsList_eq_map]
  split
  · contradiction
  · rfl

/-- A printed type has no blanks at its ends. -/
theorem Spellable.tight {t : Ty} (h : t.Spellable) : Tight t.chars := by
  -- most types begin and end with a mark; what stands in between does not matter
  have hmark {c : Char} (hc : isBlank c = false) : Tight [c] :=
    tight_of_all (List.cons_ne_nil _ _) (by simpa using hc)
  induction t with
  | prim name =>
    rw [chars]
    by_cases hnever : name = "!"
    · subst hnever
      exact hmark rfl
    · exact Alias.tight_of_isPath (Alias.isPath_of_isIdent (isIdent_of_isName h hnever))
  | var id => exact (hmark rfl).append [] (tight_decimal id.toNat)
  | tuple elems ih =>
    rw [chars]
    split
    · rename_i part _
      simpa using (hmark (c := '(') rfl).append (part ++ [',']) (hmark (c := ')') rfl)
    · exact (hmark rfl).append _ (hmark rfl)
  | array elem size ih =>
    have hinside := (hmark (c := '[') rfl).append (elem.chars ++ [';', ' '] ++ decimal size.toNat)
      (hmark (c := ']') rfl)
    simpa [chars] using hinside
  | ref region isMut inner ih =>
    have hinner := ih ((spellable_iff.mp h).2 inner (by simp [children]))
    have hbetween := (hmark (c := '&') rfl).append
      ((if region.isElided then [] else region.name.toList ++ [' ']) ++
        if isMut then ['m', 'u', 't', ' '] else []) hinner
    simpa [chars] using hbetween
  | ptr isMut inner ih =>
    have hinner := ih ((spellable_iff.mp h).2 inner (by simp [children]))
    cases isMut
    · exact (hmark (c := '*') rfl).append ['c', 'o', 'n', 's', 't', ' '] hinner
    · exact (hmark (c := '*') rfl).append ['m', 'u', 't', ' '] hinner
  | fn params ret ih ihret =>
    obtain ⟨hsome, hbelow⟩ := spellable_iff.mp h
    obtain ⟨ret, rfl⟩ := Option.isSome_iff_exists.mp hsome
    have hret := ihret ret rfl (hbelow ret (by simp [children]))
    rw [chars]
    -- a function that returns unit ends with its parameters
    split
    · simpa using (hmark (c := 'f') rfl).append (['n', '('] ++ commaSep (charsList params))
        (hmark (c := ')') rfl)
    · simpa using (hmark (c := 'f') rfl).append
        (['n', '('] ++ commaSep (charsList params) ++ [')', ' ', '-', '>', ' ']) hret
  | named name regions args ih =>
    obtain ⟨hroot, -⟩ := spellable_iff.mp h
    simp only [rootSpellable, Bool.and_eq_true] at hroot
    have hname := Alias.tight_of_isPath (Alias.isPath_of_isIdent hroot.1.1)
    by_cases happlied : regions.map Region.argChars ++ args.map chars = []
    · rw [chars, charsList_eq_map, happlied]
      exact hname
    · rw [chars_named happlied, List.append_assoc]
      exact hname.append ('<' :: commaSep _) (hmark rfl)

/-- The print of a type that is read back is a part of a list. -/
theorem isPart_of_parse_render {t : Ty} (h : parse t.render = .ok t) : IsPart t.chars where
  tight := (spellable_of_parse h).tight
  sealed := by simpa using isSealed_of_parse h

end Ty

/-! ## Printed applications -/

namespace Alias

/-- A region is a part of a list. -/
theorem isPart_of_isRegion {cs : List Char} (h : Token.isRegion cs = true) : IsPart cs where
  tight := Token.tight_of_isRegion h
  sealed := by
    rw [isSealed_iff]
    exact depthAfter?_of_plain (Token.all_isPlain_of_isRegion h) true 0 none

/-- A name and a list of parts in angle brackets are taken apart again. -/
theorem splitApplicationChars_commaSep {name : List Char} (hname : isPath name = true)
    {parts : List (List Char)} (hne : parts ≠ []) (h : ∀ part ∈ parts, IsPart part) :
    splitApplicationChars (name ++ '<' :: commaSep parts ++ ['>']) = some (name, parts) := by
  have hinside := tight_commaSep hne fun part hpart => (h part hpart).tight
  have hopen : '<' ∉ name := fun hmem => by
    cases List.all_eq_true.mp (all_isPlain_of_isPath hname) '<' hmem
  have htrim := (tight_of_isPath hname).trimChars_eq
  refine splitApplicationChars_eq_some_iff.mpr
    ⟨name, commaSep parts, by simp, hopen, htrim.symm, hname, ?_⟩
  have hempty : (commaSep parts).isEmpty = false := by simpa using hinside.ne_nil
  rw [hinside.trimChars_eq, hempty, splitTopLevelChars_commaSep hne h]
  rfl

/-- A printed application is split into its name, its printed regions and its printed arguments. The name
is any path, the regions are printed as regions, and the arguments are printed like types that are read
back from their print. -/
theorem splitApplication_render {name : String} {regions : List Region} {args : List Ty}
    (hname : isPath name.toList = true) (happlied : regions ≠ [] ∨ args ≠ [])
    (hregions : ∀ r ∈ regions, Token.isRegion r.argChars = true)
    (hargs : ∀ t ∈ args, ∃ u : Ty, u.render = t.render ∧ Ty.parse u.render = .ok u) :
    splitApplication (Ty.named name regions args).render =
      some (name, regions.map (fun r => if r.isElided then "'_" else r.name) ++ args.map Ty.render) := by
  -- no part has a comma outside brackets, so the list is split where it was put together
  have hparts : ∀ part ∈ regions.map Region.argChars ++ args.map Ty.chars, IsPart part := by
    intro part hpart
    rcases List.mem_append.mp hpart with hpart | hpart
    · obtain ⟨r, hr, rfl⟩ := List.mem_map.mp hpart
      exact isPart_of_isRegion (hregions r hr)
    · obtain ⟨t, ht, rfl⟩ := List.mem_map.mp hpart
      obtain ⟨u, hrender, hparse⟩ := hargs t ht
      have hchars : u.chars = t.chars := by rw [← Ty.toList_render, hrender, Ty.toList_render]
      rw [← hchars]
      exact Ty.isPart_of_parse_render hparse
  have hne : regions.map Region.argChars ++ args.map Ty.chars ≠ [] := by
    intro hnil
    obtain ⟨hregions, hargs⟩ := List.append_eq_nil_iff.mp hnil
    exact happlied.elim (· (List.map_eq_nil_iff.mp hregions)) (· (List.map_eq_nil_iff.mp hargs))
  have hregion (r : Region) : String.ofList r.argChars = if r.isElided then "'_" else r.name := by
    rw [Region.argChars]
    split
    · rfl
    · exact String.ofList_toList
  rw [splitApplication, Ty.toList_render, Ty.chars_named hne,
    splitApplicationChars_commaSep hname hne hparts]
  simp [Function.comp_def, hregion, Ty.render]

/-- A path applied to two regions, a tuple, and a function with commas, angle brackets and an arrow. -/
theorem splitApplication_render_of_nested :
    let args : List Ty := [.tuple [.prim "i32"],
      .fn [.ref ⟨"'a"⟩ true (.named "Vec" [] [.prim "u8", .prim "bool"]), .array (.var 7) 4]
        (some (.named "Pair" [] [.never, .unit]))]
    (Ty.named "std::Map" [⟨"'a"⟩, .elided] args).render =
        "std::Map<'a, '_, (i32,), fn(&'a mut Vec<u8, bool>, [?7; 4]) -> Pair<!, ()>>" ∧
      splitApplication (Ty.named "std::Map" [⟨"'a"⟩, .elided] args).render =
        some ("std::Map", ["'a", "'_", "(i32,)", "fn(&'a mut Vec<u8, bool>, [?7; 4]) -> Pair<!, ()>"]) := by
  intro args
  have hcanonical : ∀ t ∈ args, t.Canonical := by decide +kernel
  refine ⟨by decide +kernel, (splitApplication_render ?_ ?_ ?_ fun t ht => ?_).trans ?_⟩
  · decide +kernel
  · exact .inl (List.cons_ne_nil _ _)
  · decide +kernel
  · have ht := hcanonical t ht
    exact ⟨t, rfl, ht.spellable.parse_render_of_legible ht.legible⟩
  · decide +kernel

end Alias

end Generics
