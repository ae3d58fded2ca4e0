import Generics.Proofs.Alias.Orderly
import Generics.Proofs.Ty.Canonical

/-!
# Arguments of an alias as they are written

A text such as `Name<A, B>` is split into arguments at its commas, or it is read as a type that has
arguments. The arguments are the same if they are regions and then types. If moreover no type is lost in
print, each argument is put into a target like its print.

## Main results

* `Alias.eq_named_of_denotes`: the arguments that are split are the arguments that are read;
* `Alias.alike_render`: a type argument is put in like its print.
-/

namespace Generics

open Text

namespace Token

/-- Parts with commas between them are split into tokens one by one. -/
theorem scan_parts {part : List Char} {toks : List Token} (h : scan part = .ok toks)
    {parts : List (List Char)} {rest : List (List Token)}
    (hrest : List.Forall₂ (fun part toks => scan part = .ok toks) parts rest) :
    scan (part ++ parts.flatMap (',' :: ·)) = .ok (toks ++ rest.flatMap (.sym ',' :: ·)) := by
  induction hrest generalizing part toks with
  | nil => simpa using h
  | cons hnext _ ih =>
    rw [List.flatMap_cons, List.cons_append, scan_append (stops_sym (by decide) _) part (.inl ⟨toks, h⟩),
      scan_sym (by decide), ih hnext, h]
    rfl

end Token

namespace Ty

/-- A name as the first argument. -/
theorem readArgs?_name {name : String} (hfn : name ≠ "fn") {ts : List Token}
    (hts : ts.head? ≠ some (.sym '<')) :
    readArgs? (.ident name :: ts) = (readMoreArgs? ts).map fun more =>
      ((more.1.1, ofName name :: more.1.2), more.2) := by
  rw [readArgs?_eq (by simp) (by simp), read?_name hfn hts]
  rfl

/-- Reads regions and then types, each after a comma. -/
theorem readMoreArgs?_written {names : List String} (hnames : ∀ name ∈ names, name ≠ "'_")
    {parts : List (List Token)} {types : List Ty}
    (h : List.Forall₂ (fun part t => read? part = some (t, [])) parts types) :
    readMoreArgs? ((names.map ([Token.region ·]) ++ parts).flatMap (.sym ',' :: ·) ++ [.sym '>']) =
      some ((names.map Region.mk, types), []) := by
  -- the regions come first, and the types are read when there are none left
  induction names with
  | nil =>
    induction h with
    | nil => rfl
    | @cons part ty parts types hpart _ ih =>
      have hdelimits := delimits_flatMap parts '>' rfl []
      have hread := read?_append hpart hdelimits
      rw [List.map_nil, List.nil_append] at ih ⊢
      rw [List.flatMap_cons, List.cons_append, List.cons_append, readMoreArgs?_comma,
        List.append_assoc,
        readArgs?_eq (head?_ne_of_read? hread rfl) (fun _ => head?_ne_of_read? hread rfl), hread,
        Option.bind_some, ih]
      rfl
  | cons name names ih =>
    obtain ⟨hname, hnames⟩ := List.forall_mem_cons.mp hnames
    simp only [List.map_cons, List.cons_append, List.flatMap_cons, List.nil_append]
    rw [readMoreArgs?_comma, readArgs?_region, ih hnames, regionOf, if_neg hname]
    rfl

end Ty

namespace Alias

/-- The arguments that are read from the text between `<` and `>`. -/
theorem exists_readArgs?_of_split {inside : List Char} {names : List String}
    {written : List (List Char)} {types : List Ty}
    (hargs : (if (trimChars inside).isEmpty then [] else splitTopLevelChars ',' (trimChars inside)) =
      names.map String.toList ++ written)
    (hnames : ∀ name ∈ names, Token.isRegion name.toList = true ∧ name ≠ "'_")
    (hwritten : List.Forall₂ Ty.Denotes written types) :
    ∃ toks, Token.scan inside = .ok toks ∧
      Ty.readArgs? (toks ++ [.sym '>']) = some ((names.map Region.mk, types), []) := by
  rw [← Token.scan_trimChars]
  by_cases hempty : (trimChars inside).isEmpty = true
  · rw [if_pos hempty] at hargs
    obtain ⟨hnil, rfl⟩ := List.append_eq_nil_iff.mp hargs.symm
    obtain rfl := List.map_eq_nil_iff.mp hnil
    cases hwritten
    refine ⟨[], ?_, Ty.readArgs?_close []⟩
    rw [List.isEmpty_iff.mp hempty, Token.scan]
  · rw [if_neg hempty] at hargs
    obtain ⟨parts, hscan, hread⟩ : ∃ parts : List (List Token),
        List.Forall₂ (fun cs toks => Token.scan cs = .ok toks) written parts ∧
          List.Forall₂ (fun toks t => Ty.read? toks = some (t, [])) parts types := by
      clear hargs
      induction hwritten with
      | nil => exact ⟨[], .nil, .nil⟩
      | cons hdenotes _ ih =>
        obtain ⟨toks, hscan, hread⟩ := hdenotes
        obtain ⟨parts, hscans, hreads⟩ := ih
        exact ⟨toks :: parts, .cons hscan hscans, .cons hread hreads⟩
    have hregions : List.Forall₂ (fun cs toks => Token.scan cs = .ok toks)
        (names.map String.toList) (names.map ([Token.region ·])) :=
      List.forall₂_map_left_iff.mpr (List.forall₂_map_right_iff.mpr
        (List.forall₂_same.mpr fun name hname => (Token.spells_region name (hnames name hname).1).scan))
    have hall : List.Forall₂ (fun cs toks => Token.scan cs = .ok toks)
        (names.map String.toList ++ written) (names.map ([Token.region ·]) ++ parts) :=
      List.rel_append hregions hscan
    rw [← hargs, splitTopLevelChars, List.forall₂_map_left_iff] at hall
    simp only [Token.scan_trimChars] at hall
    have hmore := Ty.readMoreArgs?_written (fun name hname => (hnames name hname).2) hread
    -- the text is split into at least one part, so the first one can be told from the others
    generalize names.map ([Token.region ·]) ++ parts = all at hall hmore
    cases hall with
    | cons hfirst hothers =>
      have hjoined := Token.scan_parts hfirst hothers
      rw [partsAtDepth_append_flatMap] at hjoined
      rw [List.flatMap_cons, List.cons_append, List.cons_append, Ty.readMoreArgs?_comma] at hmore
      exact ⟨_, hjoined, hmore⟩

/-- The type that an applied name stands for, whose arguments are regions and then types. -/
theorem eq_named_of_denotes {cs head : List Char} {args : List (List Char)} {ty : Ty}
    (hty : Ty.Denotes cs ty) (h : splitApplicationChars cs = some (head, args))
    (hhead : Token.isIdent head = true) {names : List String} {written : List (List Char)}
    (hargs : args = names.map String.toList ++ written)
    (hnames : ∀ name ∈ names, Token.isRegion name.toList = true ∧ name ≠ "'_") {types : List Ty}
    (hwritten : List.Forall₂ Ty.Denotes written types) :
    ty = .named (String.ofList head) (names.map Region.mk) types := by
  obtain ⟨front, inside, rfl, -, rfl, -, rfl⟩ := splitApplicationChars_eq_some_iff.mp h
  obtain ⟨toks, hinside, hargs⟩ := exists_readArgs?_of_split hargs hnames hwritten
  have hfront : Token.scan front = .ok [.ident (String.ofList (trimChars front))] := by
    have hspells := Token.spells_ident (String.ofList (trimChars front))
      (by rwa [String.toList_ofList])
    rw [← Token.scan_trimChars]
    simpa using hspells.scan
  have hscan : Token.scan (front ++ '<' :: (inside ++ ['>'])) =
      .ok (.ident (String.ofList (trimChars front)) :: .sym '<' :: (toks ++ [.sym '>'])) := by
    rw [Token.scan_append (Token.stops_sym (by decide) _) front (.inl ⟨_, hfront⟩), hfront,
      Token.scan_sym (by decide), Token.scan_append (Token.stops_sym (by decide) _) inside
        (.inl ⟨toks, hinside⟩), hinside, Token.scan_sym (by decide), Token.scan]
    rfl
  obtain ⟨toks', hscan', hread⟩ := hty
  obtain rfl := Except.ok.inj (hscan.symm.trans hscan')
  -- `fn` is read as a function, which has parentheses
  by_cases hfn : String.ofList (trimChars front) = "fn"
  · rw [hfn, Ty.read?_fn] at hread
    cases hread
  · rw [Ty.read?_applied hfn, hargs] at hread
    exact (Prod.mk.inj (Option.some.inj hread)).1.symm

/-! ## Regular arguments -/

/-- The argument is a region that is not left out. -/
def isRegionArg (arg : String) : Bool := Token.isRegion arg.toList && arg ≠ "'_"

/-- The argument is a type that can be told from its print, and does not hide a mere name in parentheses
or before empty angle brackets. -/
def isTypeArg (arg : String) : Bool :=
  match Ty.parse arg with
  | .ok t => t.Legible && (isPath arg.toList || !isPath t.chars)
  | .error _ => false

/-- The arguments are regions and then types, none of which is lost in print. -/
def areRegularArgs (args : List String) : Bool := (args.dropWhile isRegionArg).all isTypeArg

theorem isTypeArg_iff {arg : String} :
    isTypeArg arg = true ↔ ∃ t, Ty.parse arg = .ok t ∧ t.Legible ∧
      (isPath t.chars = true → isPath arg.toList = true) := by
  unfold isTypeArg
  cases Ty.parse arg with
  | error e => simp
  | ok t =>
    have hpath : (isPath arg.toList || !isPath t.chars) = true ↔
        (isPath t.chars = true → isPath arg.toList = true) := by
      cases isPath t.chars <;> simp
    simp only [Bool.and_eq_true, decide_eq_true_eq, hpath, Except.ok.injEq, exists_eq_left']

/-- The types that regular arguments stand for. -/
theorem exists_types_of_areRegularArgs {args : List String} (h : areRegularArgs args = true) :
    ∃ names written types, args = names ++ written ∧ (∀ name ∈ names, isRegionArg name = true) ∧
      List.Forall₂ (fun arg t => Ty.parse arg = .ok t ∧ t.Legible ∧
        (isPath t.chars = true → isPath arg.toList = true)) written types := by
  have htypes : ∀ written : List String, written.all isTypeArg = true →
      ∃ types, List.Forall₂ (fun arg t => Ty.parse arg = .ok t ∧ t.Legible ∧
        (isPath t.chars = true → isPath arg.toList = true)) written types := by
    intro written hwritten
    induction written with
    | nil => exact ⟨[], .nil⟩
    | cons arg written ih =>
      rw [List.all_cons, Bool.and_eq_true] at hwritten
      obtain ⟨t, ht⟩ := isTypeArg_iff.mp hwritten.1
      obtain ⟨types, htypes⟩ := ih hwritten.2
      exact ⟨t :: types, .cons ht htypes⟩
  obtain ⟨types, htypes⟩ := htypes _ h
  exact ⟨args.takeWhile isRegionArg, args.dropWhile isRegionArg, types,
    List.takeWhile_append_dropWhile.symm, fun _ => List.mem_takeWhile_imp, htypes⟩

/-- A number stands for no type. -/
theorem isDigits_of_denotes {cs : List Char} {t : Ty} (h : Ty.Denotes cs t) : isDigits cs = false := by
  rw [Bool.eq_false_iff]
  intro hdigits
  obtain ⟨toks, hscan, hread⟩ := h
  cases cs with
  | nil => cases hdigits
  | cons c cs =>
    rw [isDigits, Bool.and_eq_true, List.all_cons, Bool.and_eq_true] at hdigits
    have hc := hdigits.2.1
    obtain ⟨hblank, hletter⟩ := Token.kinds_of_digit hc
    have hne : c ≠ '_' ∧ c ≠ '\'' := by
      constructor
      · rintro rfl
        cases hc
      · rintro rfl
        cases hc
    have hstart : Token.isNameStart c = false := by simp [Token.isNameStart, hletter, hne.1]
    -- the first token is a number, which starts no type
    rw [Token.scan] at hscan
    simp only [hblank, hstart, hne.2, hc, Bool.false_eq_true, if_false, if_true] at hscan
    obtain ⟨rest, -, rfl⟩ := Token.exists_of_cons_eq_ok hscan
    rw [Ty.read?_of_startsTy rfl] at hread
    cases hread

/-- A name in a path ends with the path or before a colon. -/
theorem spanName_snd_of_path {cs : List Char} (h : cs.all isPathChar = true) :
    (Token.spanName cs).2 = [] ∨ ∃ ds, (Token.spanName cs).2 = ':' :: ds := by
  fun_induction Token.spanName cs with
  | case1 => exact .inl rfl
  | case2 cs ih =>
    rw [List.all_cons, List.all_cons, Bool.and_eq_true, Bool.and_eq_true] at h
    exact ih h.2.2
  | case3 c cs _ _ ih =>
    rw [List.all_cons, Bool.and_eq_true] at h
    exact ih h.2
  | case4 c cs _ hname =>
    rw [List.all_cons, Bool.and_eq_true] at h
    have hcolon : c = ':' := by
      by_contra hne
      exact hname (isNameChar_of_isPathChar h.1 hne)
    exact .inr ⟨cs, by rw [hcolon]⟩

/-- A lone colon is no token. -/
theorem scan_colon (cs : List Char) : Token.scan (':' :: cs) = .error (.unexpectedChar ':') := by
  have hkinds := Token.kinds_of_mark (c := ':') (by simp)
  have hblank : isBlank ':' = false := by decide
  rw [Token.scan]
  simp [hkinds, hblank, Token.symbols]

/-- A path that stands for a type is the name of the type. -/
theorem chars_eq_of_isPath {cs : List Char} {t : Ty} (hpath : isPath cs = true)
    (h : Ty.Denotes cs t) : t.chars = cs := by
  obtain ⟨toks, hscan, hread⟩ := h
  cases cs with
  | nil => cases hpath
  | cons c cs =>
    rw [isPath, Bool.and_eq_true] at hpath
    by_cases hcolon : c = ':'
    · rw [hcolon, scan_colon] at hscan
      cases hscan
    have hstart : Token.isNameStart c = true := by
      simpa [Token.isNameStart, isPathStart, hcolon] using hpath.1
    rw [Token.scan, if_neg (by simp [Token.isBlank_of_isNameStart hstart]), if_pos hstart] at hscan
    obtain ⟨rest, hrest, rfl⟩ := Token.exists_of_cons_eq_ok hscan
    -- the whole path is one name, since a lone colon cannot be read
    rcases spanName_snd_of_path hpath.2 with hnil | ⟨ds, hds⟩
    · have hwhole : (Token.spanName cs).1 = cs := by
        have happend := Token.spanName_fst_append_snd cs
        rwa [hnil, List.append_nil] at happend
      rw [hnil, Token.scan] at hrest
      obtain rfl := Except.ok.inj hrest
      rw [hwhole] at hread
      by_cases hfn : String.ofList (c :: cs) = "fn"
      · rw [hfn, Ty.read?_fn] at hread
        cases hread
      · rw [Ty.read?_name hfn (by simp)] at hread
        obtain ⟨rfl, -⟩ := Prod.mk.inj (Option.some.inj hread)
        have hname : (Ty.ofName (String.ofList (c :: cs))).chars = (String.ofList (c :: cs)).toList := by
          unfold Ty.ofName
          split <;> rfl
        rw [hname, String.toList_ofList]
    · rw [hds, scan_colon] at hrest
      cases hrest

/-- A type argument is put in like its print. -/
theorem alike_render {arg : String} {t : Ty} (h : Ty.parse arg = .ok t) (hlegible : t.Legible)
    (hpath : isPath t.chars = true → isPath arg.toList = true) : Alike arg t.render := by
  have hdenotes : Ty.Denotes arg.toList t := Ty.parse_eq_ok_iff.mp h
  have hprint : Ty.Denotes t.chars t := by
    have hspellable := Ty.spellable_of_parse h
    have hback := hspellable.parse_render_eq_ok_iff.mpr (hspellable.reread_eq_self_iff.mpr hlegible)
    have hdenotes := Ty.parse_eq_ok_iff.mp hback
    rwa [Ty.toList_render] at hdenotes
  by_cases harg : isPath arg.toList = true
  · -- a path is printed as it is written
    have hsame : t.render = arg := by
      rw [← String.toList_inj, Ty.toList_render]
      exact chars_eq_of_isPath harg hdenotes
    rw [hsame]
    exact .refl _
  · -- anything else is inserted in parentheses, both as written and as printed
    have hinserted : ∀ s : String, Ty.Denotes s.toList t → ¬isPath s.toList = true →
        inserted s = '(' :: (s.toList ++ [')']) := by
      intro s hs hnot
      exact if_neg (by simp [hnot, isDigits_of_denotes hs])
    have hrender : Ty.Denotes t.render.toList t := by rwa [Ty.toList_render]
    rw [Alike, hinserted arg hdenotes harg,
      hinserted t.render hrender (by rw [Ty.toList_render]; exact mt hpath harg)]
    exact .group hdenotes hrender .nil

end Alias

end Generics
