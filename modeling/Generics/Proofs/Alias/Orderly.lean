import Generics.Alias.Words
import Generics.Proofs.Ty.Respelling

/-!
# Orderly targets

Arguments are put into the target of an alias as texts, and what comes out may again be an applied alias
that is split at its commas. It is split as it reads only if the brackets of the target are in order.
Then two lists of arguments that differ in how types in parentheses are written lead to texts that
differ in nothing else.

## Main results

* `Ty.Respelled.splitApplicationChars`: orderly texts that differ only in how types in parentheses are
  written are taken apart alike;
* `Alias.isOrderly_substitute`: an orderly target stays orderly when arguments are put in;
* `Alias.respelled_substitute`: arguments that are put in alike lead to texts that differ only in how
  types in parentheses are written.
-/

namespace Generics

open Text

namespace Alias

/-! ## Characters of words and paths -/

/-- A path is made of the same characters as a word. -/
theorem isPathChar_eq_isWordChar : isPathChar = isWordChar := by
  funext c
  simp only [isPathChar, isPathStart, isWordChar, isIdentChar]
  ac_rfl

/-- Only the colon sets a path apart from a name. -/
theorem isNameChar_of_isPathChar {c : Char} (h : isPathChar c = true) (hcolon : c ≠ ':') :
    Token.isNameChar c = true := by
  simpa [isPathChar, isPathStart, Token.isNameChar, hcolon] using h

/-- Characters of a path neither open nor close a bracket. -/
theorem isPlain_of_isPathChar {c : Char} (h : isPathChar c = true) : isPlain c = true := by
  by_cases hcolon : c = ':'
  · subst hcolon
    rfl
  · exact Token.isPlain_of_kind (.inr (isNameChar_of_isPathChar h hcolon))

/-- The rest of a name is a run of word characters. -/
theorem all_isWordChar_of_isNameTail {cs : List Char} (h : Token.isNameTail cs = true) :
    cs.all isWordChar = true := by
  fun_induction Token.isNameTail cs with
  | case1 => rfl
  | case2 cs ih => simpa [isWordChar] using ih h
  | case3 c cs _ ih =>
    rw [Bool.and_eq_true] at h
    have hc : isWordChar c = true := by
      rw [isWordChar, Bool.or_eq_true]
      exact .inl h.1
    rw [List.all_cons, hc, ih h.2]
    rfl

/-- The first character of a path could go on in one. -/
theorem all_isPathChar_of_isPath {cs : List Char} (h : isPath cs = true) :
    cs.all isPathChar = true := by
  cases cs with
  | nil => rfl
  | cons c cs =>
    rw [isPath, Bool.and_eq_true] at h
    rw [List.all_cons, h.2, isPathChar, h.1]
    rfl

/-! ## Names with arguments -/

/-- A path has no brackets. -/
theorem all_isPlain_of_isPath {cs : List Char} (h : isPath cs = true) : cs.all isPlain = true := by
  have hall := List.all_eq_true.mp (all_isPathChar_of_isPath h)
  exact List.all_eq_true.mpr fun c hc => isPlain_of_isPathChar (hall c hc)

/-- A number has no brackets. -/
theorem all_isPlain_of_isDigits {cs : List Char} (h : isDigits cs = true) :
    cs.all isPlain = true := by
  rw [isDigits, Bool.and_eq_true] at h
  exact List.all_eq_true.mpr fun c hc =>
    Token.isPlain_of_kind (.inr (Token.isNameChar_of_isDigit (List.all_eq_true.mp h.2 c hc)))

/-- Plain text has no parenthesis. -/
theorem not_mem_of_all_isPlain {cs : List Char} (h : cs.all isPlain = true) : '(' ∉ cs := by
  intro hmem
  cases List.all_eq_true.mp h '(' hmem

/-- Takes `Name<A, B>` apart. -/
theorem splitApplicationChars_eq_some_iff {cs head : List Char} {args : List (List Char)} :
    splitApplicationChars cs = some (head, args) ↔
      ∃ front inside, cs = front ++ '<' :: (inside ++ ['>']) ∧ '<' ∉ front ∧
        head = trimChars front ∧ isPath head = true ∧
        args = if (trimChars inside).isEmpty then [] else splitTopLevelChars ',' (trimChars inside) := by
  constructor
  · intro h
    have hsplit := List.takeWhile_append_dropWhile (p := (· ≠ '<')) (l := cs)
    unfold splitApplicationChars at h
    cases hdrop : cs.dropWhile (· ≠ '<') with
    | nil =>
      rw [hdrop] at h
      cases h
    | cons c rest =>
      -- the front ends before the first angle bracket
      obtain rfl : c = '<' := by
        have hhead := head?_dropWhile (· ≠ '<') cs c (by rw [hdrop]; rfl)
        simpa using hhead
      rw [hdrop] at h hsplit
      simp only [Option.ite_none_right_eq_some, Option.some.injEq, Prod.mk.injEq] at h
      obtain ⟨⟨hlast, hpath⟩, rfl, rfl⟩ := h
      obtain ⟨inside, rfl⟩ := List.getLast?_eq_some_iff.mp hlast
      refine ⟨cs.takeWhile (· ≠ '<'), inside, hsplit.symm, ?_, rfl, hpath, ?_⟩
      · intro hmem
        simpa using List.mem_takeWhile_imp hmem
      · rw [List.dropLast_concat]
  · rintro ⟨front, inside, rfl, hfront, rfl, hpath, rfl⟩
    have hbefore : front.all (· ≠ '<') = true := by simpa using fun c hc => ne_of_mem_of_not_mem hc hfront
    have hopen : ∀ c ∈ ('<' :: (inside ++ ['>'])).head?, decide (c ≠ '<') = false := by simp
    obtain ⟨htake, hdrop⟩ := takeWhile_append_of_all hbefore hopen
    unfold splitApplicationChars
    rw [htake, hdrop]
    simp [hpath]

/-- Before the arguments there are only letters, digits, underscores, colons and blanks. -/
theorem all_isPlain_of_isPath_trimChars {cs : List Char} (h : isPath (trimChars cs) = true) :
    cs.all isPlain = true := by
  obtain ⟨before, after, hcs, hbefore, hafter⟩ := exists_blanks cs
  rw [hcs, List.all_append, List.all_append, all_isPlain_of_blank hbefore,
    all_isPlain_of_isPath h, all_isPlain_of_blank hafter]
  rfl

/-! ## Orderly texts -/

/-- Every bracket of the text is closed in it, and it does not end in an arrow. -/
def isOrderly (cs : List Char) : Bool := isBalanced cs && !List.isSuffixOf ['-', '>'] cs

/-- An orderly text ends as deep as it begins, and not in an arrow. -/
theorem isOrderly_iff {cs : List Char} :
    isOrderly cs = true ↔ depthAfter? false 0 none cs = some 0 ∧ ¬['-', '>'] <:+ cs := by
  simp [isOrderly, isBalanced, ← List.isSuffixOf_iff_suffix]

/-- A text stays orderly when it is respelled. -/
theorem isOrderly_of_respelled {cs ds : List Char} (h : Ty.Respelled cs ds)
    (hcs : isOrderly cs = true) : isOrderly ds = true := by
  rw [isOrderly_iff] at hcs ⊢
  -- an arrow at the end is outside all groups
  refine ⟨(h.depthAfter?_eq false 0 none).trans hcs.1, ?_⟩
  rintro ⟨front, rfl⟩
  rw [List.append_cons] at h
  obtain ⟨cs', rfl, h'⟩ := h.symm.exists_concat (by decide)
  obtain ⟨cs'', rfl, -⟩ := h'.exists_concat (by decide)
  exact hcs.2 ⟨cs'', by simp⟩

/-- The list of arguments in an orderly text ends as deep as it begins. -/
theorem depthAfter?_inside {front inside : List Char} (hfront : isPath (trimChars front) = true)
    (h : isOrderly (front ++ '<' :: (inside ++ ['>'])) = true) :
    depthAfter? false 1 none inside = some 1 := by
  obtain ⟨hdepth, harrow⟩ := isOrderly_iff.mp h
  rw [depthAfter?_plain (all_isPlain_of_isPath_trimChars hfront) false 0 (by simp)] at hdepth
  replace hdepth : depthAfter? false 1 (some '<') (inside ++ ['>']) = some 0 := hdepth
  rw [depthAfter?_append] at hdepth
  obtain ⟨depth, hinside, hclose⟩ := Option.bind_eq_some_iff.mp hdepth
  -- the last `>` closes the list, since it is not that of an arrow
  have hlast : lastAfter (some '<') inside ≠ some '-' := by
    intro hdash
    rcases List.eq_nil_or_concat' inside with rfl | ⟨before, last, rfl⟩
    · cases hdash
    · rw [lastAfter_append] at hdash
      obtain rfl : last = '-' := Option.some.inj hdash
      exact harrow ⟨front ++ '<' :: before, by simp⟩
  have hmark : mark (lastAfter (some '<') inside) '>' = .closing := by simp [mark, hlast]
  rw [depthAfter?_cons, hmark] at hclose
  cases depth with
  | zero => cases hclose
  | succ depth =>
    obtain rfl : depth = 0 := Option.some.inj hclose
    exact (depthAfter?_congr (by decide) false 1 inside).trans hinside

/-- The arguments in an orderly text end as deep as they begin. -/
theorem depthAfter?_of_splitApplicationChars {cs head : List Char} {args : List (List Char)}
    (hcs : isOrderly cs = true) (h : splitApplicationChars cs = some (head, args)) :
    ∀ arg ∈ args, depthAfter? false 1 none arg = some 1 := by
  obtain ⟨front, inside, rfl, -, rfl, hpath, rfl⟩ := splitApplicationChars_eq_some_iff.mp h
  split
  · exact List.forall_mem_nil _
  · have hinside := (depthAfter?_trimChars false 1 inside).trans (depthAfter?_inside hpath hcs)
    obtain ⟨hfirst, hothers⟩ := depthAfter?_partsAtDepth hinside
    intro arg harg
    obtain ⟨part, hpart, rfl⟩ := List.mem_map.mp harg
    rw [depthAfter?_trimChars]
    rcases List.mem_cons.mp hpart with rfl | hpart
    · exact hfirst
    · exact hothers part hpart

end Alias

/-- Orderly texts are taken apart alike. -/
theorem Ty.Respelled.splitApplicationChars {cs ds : List Char} (h : Respelled cs ds)
    (hcs : Alias.isOrderly cs = true) {head : List Char} {args : List (List Char)}
    (hsplit : Alias.splitApplicationChars cs = some (head, args)) :
    ∃ args', Alias.splitApplicationChars ds = some (head, args') ∧
      List.Forall₂ Respelled args args' := by
  obtain ⟨front, inside, rfl, hfront, rfl, hpath, rfl⟩ :=
    Alias.splitApplicationChars_eq_some_iff.mp hsplit
  -- the name has no parentheses, so that both texts have it in front
  have hplain := Alias.not_mem_of_all_isPlain (Alias.all_isPlain_of_isPath_trimChars hpath)
  obtain ⟨ds₁, rfl, h₁⟩ := h.exists_append hplain
  obtain ⟨ds₂, rfl, h₂⟩ := h₁.exists_cons (by decide)
  obtain ⟨inside', rfl, hinside⟩ := h₂.exists_concat (by decide)
  refine ⟨_, Alias.splitApplicationChars_eq_some_iff.mpr
    ⟨front, inside', rfl, hfront, rfl, hpath, rfl⟩, ?_⟩
  have htrim := hinside.trimChars
  rw [htrim.isEmpty_eq]
  split
  · exact .nil
  · have hdepth := (depthAfter?_trimChars false 1 inside).trans (Alias.depthAfter?_inside hpath hcs)
    obtain ⟨hfirst, hothers⟩ := htrim.partsAtDepth hdepth
    exact .cons hfirst.trimChars
      (List.forall₂_map_left_iff.mpr (List.forall₂_map_right_iff.mpr
        (hothers.imp fun _ _ h => h.trimChars)))

/-! ## Arguments put in -/

namespace Alias

/-- The text leaves the brackets around it alone, and no arrow begins or ends at its end. -/
structure Steady (cs : List Char) : Prop where
  depth : ∀ depth previous rest,
    depthAfter? false depth previous (cs ++ rest) = depthAfter? false depth none rest
  last : ∃ front c, cs = front ++ [c] ∧ c ≠ '-' ∧ c ≠ '>'

/-- Plain text is steady. -/
theorem steady_of_plain {cs : List Char} (hne : cs ≠ []) (h : cs.all isPlain = true) : Steady cs := by
  refine ⟨fun depth previous rest => ?_, ?_⟩
  · cases cs with
    | nil => exact absurd rfl hne
    | cons c cs =>
      rw [List.all_cons, Bool.and_eq_true] at h
      rw [List.cons_append, depthAfter?_cons, mark_of_isPlain h.1]
      refine depthAfter?_plain h.2 false depth ?_ rest
      rintro ⟨⟩
      cases h.1
  · rcases List.eq_nil_or_concat' cs with rfl | ⟨front, c, rfl⟩
    · exact absurd rfl hne
    · have hc : isPlain c = true := List.all_eq_true.mp h c (by simp)
      refine ⟨front, c, rfl, ?_, ?_⟩
      · rintro rfl
        cases hc
      · rintro rfl
        cases hc

/-- A text in parentheses is steady if it ends as deep as it begins. -/
theorem steady_group {inside : List Char} (h : depthAfter? false 1 none inside = some 1) :
    Steady ('(' :: inside ++ [')']) := by
  refine ⟨fun depth previous rest => ?_, '(' :: inside, ')', rfl, by decide, by decide⟩
  have hsplit : '(' :: inside ++ [')'] ++ rest = '(' :: (inside ++ ')' :: rest) := by simp
  rw [hsplit, depthAfter?_group h]

/-- An argument that ends as deep as it begins does so when it is put in. -/
theorem steady_inserted {arg : String} (h : depthAfter? false 1 none arg.toList = some 1) :
    Steady (inserted arg) := by
  unfold inserted
  split
  · rename_i hbare
    rcases Bool.or_eq_true_iff.mp hbare with hpath | hdigits
    · refine steady_of_plain ?_ (all_isPlain_of_isPath hpath)
      rintro hnil
      rw [hnil] at hpath
      cases hpath
    · refine steady_of_plain ?_ (all_isPlain_of_isDigits hdigits)
      rintro hnil
      rw [hnil] at hdigits
      cases hdigits
  · exact steady_group h

/-- The characters of a piece of a text. -/
def Segment.chars : Segment → List Char
  | .word w => w
  | .other cs => cs

/-- The pieces of a text make up the text. -/
theorem flatMap_chars_segments (cs : List Char) : (segments cs).flatMap Segment.chars = cs := by
  fun_induction segments cs with
  | case1 => rfl
  | case2 cs ih => simp [Segment.chars, ih, List.takeWhile_append_dropWhile]
  | case3 c cs _ _ ih => simp [Segment.chars, ih, List.takeWhile_append_dropWhile]
  | case4 c cs _ _ ih => simp [Segment.chars, ih]

/-- Words are steady. -/
theorem steady_of_mem_segments {cs w : List Char} (h : .word w ∈ segments cs) : Steady w := by
  fun_induction segments cs with
  | case1 => cases h
  | case2 cs ih =>
    rcases List.mem_cons.mp h with h | h
    · cases h
    · exact ih h
  | case3 c cs _ hc ih =>
    rcases List.mem_cons.mp h with h | h
    · -- a word has no brackets, commas or arrows in it
      obtain rfl := Segment.word.inj h
      refine steady_of_plain (List.cons_ne_nil _ _) (List.all_eq_true.mpr fun d hd => ?_)
      refine isPlain_of_isPathChar ?_
      rw [isPathChar_eq_isWordChar]
      rcases List.mem_cons.mp hd with rfl | hd
      · rw [isWordChar, hc, Bool.true_or]
      · exact List.mem_takeWhile_imp hd
    · exact ih h
  | case4 c cs _ _ ih =>
    rcases List.mem_cons.mp h with h | h
    · cases h
    · exact ih h

/-- A word becomes its argument, or stays if it has none. -/
theorem Segment.fill_word (params args : List String) (w : List Char) :
    (Segment.word w).fill params args = ((argument? params args w).map inserted).getD w := by
  rw [Segment.fill]
  cases argument? params args w <;> rfl

section Fill

variable {params args : List String}

/-- Arguments that end as deep as they begin are put in as steady texts. -/
theorem steady_fill (hargs : ∀ arg ∈ args, depthAfter? false 1 none arg.toList = some 1)
    {w : List Char} (hw : Steady w) : Steady ((Segment.word w).fill params args) := by
  rw [Segment.fill_word]
  cases harg : argument? params args w with
  | none => exact hw
  | some arg =>
    have hmem : arg ∈ args := (List.of_mem_zip (List.mem_reverse.mp (mem_of_lookup harg))).2
    exact steady_inserted (hargs arg hmem)

/-- Putting in steady texts changes no depth. -/
theorem depthAfter?_flatMap_fill
    (hargs : ∀ arg ∈ args, depthAfter? false 1 none arg.toList = some 1) {ss : List Segment}
    (hss : ∀ w, .word w ∈ ss → Steady w) (depth : Nat) (previous : Option Char) :
    depthAfter? false depth previous (ss.flatMap (Segment.fill params args)) =
      depthAfter? false depth previous (ss.flatMap Segment.chars) := by
  induction ss generalizing depth previous with
  | nil => rfl
  | cons s ss ih =>
    have hrest := ih fun w hw => hss w (List.mem_cons_of_mem s hw)
    rw [List.flatMap_cons, List.flatMap_cons]
    cases s with
    | word w =>
      have hw := hss w List.mem_cons_self
      -- neither the word nor what is put in for it changes the depth
      rw [(steady_fill hargs hw).depth, hrest]
      exact (hw.depth depth previous _).symm
    | other cs =>
      rw [depthAfter?_append, depthAfter?_append]
      exact congrArg _ (funext fun depth => hrest depth _)

/-- An arrow at the end is not part of what is put in. -/
theorem suffix_of_suffix_fill
    (hargs : ∀ arg ∈ args, depthAfter? false 1 none arg.toList = some 1) {ss : List Segment}
    (hss : ∀ w, .word w ∈ ss → Steady w) {x : List Char} (hx : ∀ c ∈ x, c = '-' ∨ c = '>')
    (h : x <:+ ss.flatMap (Segment.fill params args)) : x <:+ ss.flatMap Segment.chars := by
  induction ss using List.reverseRecOn generalizing x with
  | nil => exact h
  | append_singleton ss s ih =>
    have hwords : ∀ w, .word w ∈ ss → Steady w := fun w hw => hss w (List.mem_append_left _ hw)
    rw [List.flatMap_append, List.flatMap_singleton] at h ⊢
    cases s with
    | word w =>
      -- what stands at the end is neither a dash nor a `>`
      have hsteady : Steady ((Segment.word w).fill params args) := steady_fill hargs (hss w (by simp))
      obtain ⟨front, c, hfill, hdash, hangle⟩ := hsteady.last
      rcases List.eq_nil_or_concat' x with rfl | ⟨y, d, rfl⟩
      · exact List.nil_suffix
      · obtain ⟨z, hz⟩ := h
        rw [hfill, ← List.append_assoc, ← List.append_assoc] at hz
        obtain rfl := (List.cons.inj (List.append_inj' hz rfl).2).1
        rcases hx d (by simp) with rfl | rfl
        · exact absurd rfl hdash
        · exact absurd rfl hangle
    | other cs =>
      -- the arrow stands in this piece, or begins before it
      rcases List.suffix_or_suffix_of_suffix h (List.suffix_append _ _) with hshort | ⟨y, rfl⟩
      · exact hshort.trans (List.suffix_append _ _)
      · obtain ⟨z, hz⟩ := h
        rw [← List.append_assoc] at hz
        obtain ⟨z', hz'⟩ := ih hwords (fun c hc => hx c (List.mem_append_left _ hc))
          ⟨z, List.append_cancel_right hz⟩
        exact ⟨z', by rw [← hz', List.append_assoc]; rfl⟩

/-- An orderly target stays orderly. -/
theorem isOrderly_substitute {target : String} (htarget : isOrderly target.toList = true)
    (hargs : ∀ arg ∈ args, depthAfter? false 1 none arg.toList = some 1) :
    isOrderly (substitute target params args).toList = true := by
  have hwords : ∀ w, .word w ∈ segments target.toList → Steady w := fun _ => steady_of_mem_segments
  rw [isOrderly_iff] at htarget ⊢
  rw [substitute, String.toList_ofList, depthAfter?_flatMap_fill hargs hwords,
    flatMap_chars_segments]
  refine ⟨htarget.1, fun harrow => htarget.2 ?_⟩
  rw [← flatMap_chars_segments target.toList]
  exact suffix_of_suffix_fill hargs hwords (by simp) harrow

end Fill

/-- The arguments are put in alike. -/
def Alike (arg arg' : String) : Prop := Ty.Respelled (inserted arg) (inserted arg')

/-- Arguments that are alike are found alike. -/
theorem lookup_alike {ps ps' : List (String × String)}
    (h : List.Forall₂ (fun p p' => p'.1 = p.1 ∧ Alike p.2 p'.2) ps ps') (key : String) :
    Option.Rel Alike (ps.lookup key) (ps'.lookup key) := by
  induction h with
  | nil => exact .none
  | @cons p p' _ _ hp _ ih =>
    rw [List.lookup_cons, List.lookup_cons, hp.1]
    cases key == p.1 with
    | true => exact .some hp.2
    | false => exact ih

/-- Parameters have arguments that are alike. -/
theorem forall₂_zip_alike {args args' : List String} (h : List.Forall₂ Alike args args')
    (params : List String) :
    List.Forall₂ (fun p p' => p'.1 = p.1 ∧ Alike p.2 p'.2) (params.zip args) (params.zip args') := by
  induction h generalizing params with
  | nil => simp
  | cons harg _ ih =>
    cases params with
    | nil => exact .nil
    | cons param params => exact .cons ⟨rfl, harg⟩ (ih params)

/-- An argument and another spelling of it are put in alike. -/
theorem alike_of_respelled {arg arg' : String} (h : Ty.Respelled arg.toList arg'.toList) :
    Alike arg arg' := by
  by_cases heq : arg = arg'
  · rw [heq]
    exact .refl _
  -- a path or a number has no parentheses, and is not written otherwise
  have hwrapped {a b : String} (hab : Ty.Respelled a.toList b.toList) (hne : a ≠ b) :
      inserted a = '(' :: a.toList ++ [')'] := by
    refine if_neg fun hbare => hne ?_
    have hplain : a.toList.all isPlain = true := by
      rcases Bool.or_eq_true_iff.mp hbare with hpath | hdigits
      · exact all_isPlain_of_isPath hpath
      · exact all_isPlain_of_isDigits hdigits
    exact String.toList_inj.mp (hab.eq_of_not_mem (not_mem_of_all_isPlain hplain)).symm
  rw [Alike, hwrapped h heq, hwrapped h.symm (Ne.symm heq)]
  exact .append (.cons '(' h) (.refl _)

/-- Arguments that are alike make spellings of one target. -/
theorem respelled_substitute {args args' : List String} (h : List.Forall₂ Alike args args')
    (target : String) (params : List String) :
    Ty.Respelled (substitute target params args).toList (substitute target params args').toList := by
  rw [substitute, substitute, String.toList_ofList, String.toList_ofList]
  induction segments target.toList with
  | nil => exact .nil
  | cons s ss ih =>
    rw [List.flatMap_cons, List.flatMap_cons]
    refine .append ?_ ih
    cases s with
    | word w =>
      have hargs : Option.Rel Alike (argument? params args w) (argument? params args' w) :=
        lookup_alike (List.rel_reverse (forall₂_zip_alike h params)) _
      rw [Segment.fill_word, Segment.fill_word]
      generalize argument? params args w = found, argument? params args' w = found' at hargs ⊢
      cases hargs with
      | none => exact .refl w
      | some harg => exact harg
    | other cs => exact .refl cs

end Alias

end Generics
