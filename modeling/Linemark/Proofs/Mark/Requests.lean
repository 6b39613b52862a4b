import Linemark.Mark.Request
import Linemark.Proofs.Mark.Grammar

/-!
# Reading requests

Options and places may be mixed in any way. Reading the arguments in one go, as they come, is the
same as reading the options on their own and then the places (`ofArguments_eq`), so the order
matters only among the options and among the places.

What an option asks for is a setting, and the option is how the setting is written. An option as
which no setting is written is bad, for one reason; the first such option is the error, and good
options behind it do not help. Of several settings of a kind the last holds: `LastOf` says so by a
look at the list, while reading settles the options one after another, and the two agree
(`foldl_set_eq_iff`).
-/

namespace Linemark

private theorem afterPrefix?_eq_some_iff {start text rest : String} :
    afterPrefix? start text = some rest ↔ text = start ++ rest := by
  rw [afterPrefix?, Option.map_eq_some_iff]
  constructor
  · rintro ⟨cs, hcs, rfl⟩
    rw [← String.toList_inj, String.toList_append, String.toList_ofList]
    exact (List.isPrefixOf?_eq_some_iff_append_eq.mp hcs).symm
  · rintro rfl
    refine ⟨rest.toList, ?_, String.ofList_toList⟩
    rw [String.toList_append]
    exact List.isPrefixOf?_eq_some_iff_append_eq.mpr rfl

private theorem afterPrefix?_eq_none_iff {start text : String} :
    afterPrefix? start text = none ↔ ∀ rest, text ≠ start ++ rest := by
  rw [Option.eq_none_iff_forall_ne_some]
  exact forall_congr' fun rest ↦ not_congr afterPrefix?_eq_some_iff

/-! ## Options -/

/-- An argument starts with two hyphens. -/
def Hyphenated (argument : String) : Prop := ∃ rest, argument = "--" ++ rest

theorem isOption_iff {argument : String} : isOption argument = true ↔ Hyphenated argument := by
  rw [isOption, Option.isSome_iff_exists]
  exact exists_congr fun rest ↦ afterPrefix?_eq_some_iff

instance (argument : String) : Decidable (Hyphenated argument) :=
  decidable_of_iff (isOption argument = true) isOption_iff

/-- Something that an option asks for. -/
inductive Setting
  | severity (s : Severity)
  | message (text : String)
  | color (m : ColorMode)

/-- The option that asks for a setting. -/
def Setting.option : Setting → String
  | .severity s => "--severity=" ++ s.name
  | .message text => "--message=" ++ text
  | .color m => "--color=" ++ m.name

/-- An option asks for a setting. -/
def Understood (argument : String) : Prop := ∃ s : Setting, s.option = argument

/-- Why an option asks for nothing. -/
inductive BadOption : String → ArgumentError → Prop
  /-- There is no such severity. -/
  | severity {word : String} (h : ∀ s : Severity, s.name ≠ word) :
    BadOption ("--severity=" ++ word) (.severity ⟨word⟩)
  /-- There is no such colour mode. -/
  | color {word : String} (h : ∀ m : ColorMode, m.name ≠ word) :
    BadOption ("--color=" ++ word) (.colorMode word)
  /-- There is no such option. -/
  | unknown {argument : String} (hseverity : ∀ word, argument ≠ "--severity=" ++ word)
    (hmessage : ∀ word, argument ≠ "--message=" ++ word)
    (hcolor : ∀ word, argument ≠ "--color=" ++ word) :
    BadOption argument (.unknownOption argument)

/-- Settles what an option asks for. -/
def Presentation.set (p : Presentation) : Setting → Presentation
  | .severity s => { p with severity := s }
  | .message text => { p with message := text }
  | .color m => { p with color := m }

theorem Severity.read_name (s : Severity) : read s.name = .ok s := by
  rw [read, ofName?_eq_some_iff.mpr rfl]

private theorem Severity.read_of_forall_ne {word : String} (h : ∀ s : Severity, s.name ≠ word) :
    read word = .error ⟨word⟩ := by
  have hnone : ofName? word = none := by
    rw [Option.eq_none_iff_forall_ne_some]
    exact fun s hs ↦ h s (ofName?_eq_some_iff.mp hs)
  rw [read, hnone]

section

variable (p : Presentation) (word : String)

private theorem readOption_severity : p.readOption ("--severity=" ++ word)
    = ((Severity.read word).mapError .severity).map fun severity ↦ { p with severity } := by
  rw [Presentation.readOption, afterPrefix?_eq_some_iff.mpr rfl]
  dsimp only
  cases Severity.read word <;> rfl

private theorem readOption_message :
    p.readOption ("--message=" ++ word) = .ok { p with message := word } := by
  have hseverity : afterPrefix? "--severity=" ("--message=" ++ word) = none := by
    rw [afterPrefix?, String.toList_append]
    rfl
  rw [Presentation.readOption, hseverity, afterPrefix?_eq_some_iff.mpr rfl]

private theorem readOption_color : p.readOption ("--color=" ++ word)
    = (ColorMode.ofName? word).elim (.error (.colorMode word)) fun color ↦
        .ok { p with color } := by
  have hseverity : afterPrefix? "--severity=" ("--color=" ++ word) = none := by
    rw [afterPrefix?, String.toList_append]
    rfl
  have hmessage : afterPrefix? "--message=" ("--color=" ++ word) = none := by
    rw [afterPrefix?, String.toList_append]
    rfl
  rw [Presentation.readOption, hseverity, hmessage, afterPrefix?_eq_some_iff.mpr rfl]
  dsimp only
  cases ColorMode.ofName? word <;> rfl

/-- Reading an option settles what it asks for. -/
theorem readOption_option (s : Setting) : p.readOption s.option = .ok (p.set s) := by
  cases s with
  | severity s =>
    rw [Setting.option, readOption_severity, Severity.read_name]
    rfl
  | message text => exact readOption_message p text
  | color m =>
    rw [Setting.option, readOption_color, ColorMode.ofName?_eq_some_iff.mpr rfl,
      Option.elim_some]
    rfl

variable {word}

private theorem BadOption.readOption_eq {argument : String} {e : ArgumentError}
    (h : BadOption argument e) : p.readOption argument = .error e := by
  cases h with
  | severity h =>
    rw [readOption_severity, Severity.read_of_forall_ne h]
    rfl
  | @color word h =>
    have hnone : ColorMode.ofName? word = none := by
      rw [Option.eq_none_iff_forall_ne_some]
      exact fun m hm ↦ h m (ColorMode.ofName?_eq_some_iff.mp hm)
    rw [readOption_color, hnone, Option.elim_none]
  | unknown hseverity hmessage hcolor =>
    rw [Presentation.readOption, afterPrefix?_eq_none_iff.mpr hseverity,
      afterPrefix?_eq_none_iff.mpr hmessage, afterPrefix?_eq_none_iff.mpr hcolor]

end

private theorem understood_or_badOption (argument : String) :
    Understood argument ∨ ∃ e, BadOption argument e := by
  by_cases hseverity : ∃ word, argument = "--severity=" ++ word
  · obtain ⟨word, rfl⟩ := hseverity
    by_cases hword : ∃ s : Severity, s.name = word
    · obtain ⟨s, rfl⟩ := hword
      exact .inl ⟨.severity s, rfl⟩
    · exact .inr ⟨_, .severity (not_exists.mp hword)⟩
  by_cases hmessage : ∃ word, argument = "--message=" ++ word
  · obtain ⟨word, rfl⟩ := hmessage
    exact .inl ⟨.message word, rfl⟩
  by_cases hcolor : ∃ word, argument = "--color=" ++ word
  · obtain ⟨word, rfl⟩ := hcolor
    by_cases hword : ∃ m : ColorMode, m.name = word
    · obtain ⟨m, rfl⟩ := hword
      exact .inl ⟨.color m, rfl⟩
    · exact .inr ⟨_, .color (not_exists.mp hword)⟩
  · exact .inr ⟨_, .unknown (not_exists.mp hseverity) (not_exists.mp hmessage)
      (not_exists.mp hcolor)⟩

/-! ## The first that is bad -/

/-- Of some arguments the first that is not good is bad, for the given reason. -/
def FirstBad {ε : Type} (good : String → Prop) (bad : String → ε → Prop) (arguments : List String)
    (e : ε) : Prop :=
  ∃ before argument after, arguments = before ++ argument :: after ∧ (∀ a ∈ before, good a) ∧
    bad argument e

section

variable {ε : Type} {good : String → Prop} {bad : String → ε → Prop} {e : ε}

private theorem not_firstBad_nil : ¬FirstBad good bad [] e := by
  rintro ⟨before, argument, after, h, -⟩
  simp at h

private theorem firstBad_cons_iff {argument : String} {arguments : List String} :
    FirstBad good bad (argument :: arguments) e ↔
      bad argument e ∨ good argument ∧ FirstBad good bad arguments e := by
  constructor
  · rintro ⟨before, a, after, h, hbefore, ha⟩
    rcases List.cons_eq_append_iff.mp h with ⟨rfl, hcons⟩ | ⟨rest, rfl, rfl⟩
    · obtain ⟨rfl, rfl⟩ := List.cons.inj hcons
      exact .inl ha
    · obtain ⟨hgood, hrest⟩ := List.forall_mem_cons.mp hbefore
      exact .inr ⟨hgood, rest, a, after, rfl, hrest, ha⟩
  · rintro (hbad | ⟨hgood, before, a, after, rfl, hbefore, ha⟩)
    · exact ⟨[], argument, arguments, rfl, fun a ha ↦ absurd ha List.not_mem_nil, hbad⟩
    · exact ⟨argument :: before, a, after, rfl, List.forall_mem_cons.mpr ⟨hgood, hbefore⟩, ha⟩

private theorem forall_good_or_firstBad (h : ∀ a, good a ∨ ∃ e, bad a e) (arguments : List String) :
    (∀ a ∈ arguments, good a) ∨ ∃ e, FirstBad good bad arguments e := by
  induction arguments with
  | nil => exact .inl fun a ha ↦ absurd ha List.not_mem_nil
  | cons argument arguments ih =>
    rcases h argument with hgood | ⟨e, hbad⟩
    · rcases ih with hrest | ⟨e, hrest⟩
      · exact .inl (List.forall_mem_cons.mpr ⟨hgood, hrest⟩)
      · exact .inr ⟨e, firstBad_cons_iff.mpr (.inr ⟨hgood, hrest⟩)⟩
    · exact .inr ⟨e, firstBad_cons_iff.mpr (.inl hbad)⟩

end

private theorem exists_map_option_eq {options : List String} (h : ∀ a ∈ options, Understood a) :
    ∃ settings : List Setting, options = settings.map Setting.option := by
  induction options with
  | nil => exact ⟨[], rfl⟩
  | cons a options ih =>
    obtain ⟨s, rfl⟩ := h a List.mem_cons_self
    obtain ⟨settings, rfl⟩ := ih fun b hb ↦ h b (List.mem_cons_of_mem _ hb)
    exact ⟨s :: settings, rfl⟩

private theorem foldlM_readOption_map (p : Presentation) (settings : List Setting) :
    (settings.map Setting.option).foldlM Presentation.readOption p
      = .ok (settings.foldl Presentation.set p) := by
  induction settings generalizing p with
  | nil => rfl
  | cons s settings ih =>
    rw [List.map_cons, List.foldlM_cons, readOption_option, List.foldl_cons, ← ih]
    rfl

/-- The first bad option is the error, whatever comes after it. -/
theorem FirstBad.foldlM_readOption_eq {options : List String} {e : ArgumentError}
    (h : FirstBad Understood BadOption options e) (p : Presentation) :
    options.foldlM Presentation.readOption p = .error e := by
  obtain ⟨before, argument, after, rfl, hbefore, hbad⟩ := h
  obtain ⟨settings, rfl⟩ := exists_map_option_eq hbefore
  rw [List.foldlM_append, foldlM_readOption_map]
  change (argument :: after).foldlM Presentation.readOption _ = _
  rw [List.foldlM_cons, hbad.readOption_eq]
  rfl

/-! ## The last of a kind -/

/-- The value of the last setting of a kind, or the default if there is none. -/
inductive LastOf {α : Type} (kind : α → Setting) (settings : List Setting) (default : α) : α → Prop
  /-- No setting of the kind comes after this one. -/
  | given {before after : List Setting} {value : α} (h : settings = before ++ kind value :: after)
    (hlast : ∀ v, kind v ∉ after) : LastOf kind settings default value
  /-- There is no setting of the kind. -/
  | absent (h : ∀ v, kind v ∉ settings) : LastOf kind settings default default

section

variable {α : Type} {kind : α → Setting} {default value : α}

private theorem lastOf_nil_iff : LastOf kind [] default value ↔ value = default := by
  constructor
  · rintro (⟨h, -⟩ | -)
    · simp at h
    · rfl
  · rintro rfl
    exact .absent fun v hv ↦ absurd hv List.not_mem_nil

private theorem lastOf_cons_iff {settings : List Setting} {new : α}
    (hkind : Function.Injective kind) :
    LastOf kind (kind new :: settings) default value ↔ LastOf kind settings new value := by
  constructor
  · rintro (⟨h, hlast⟩ | h)
    · rcases List.cons_eq_append_iff.mp h with ⟨rfl, hcons⟩ | ⟨before, rfl, rfl⟩
      · obtain ⟨hvalue, rfl⟩ := List.cons.inj hcons
        obtain rfl := hkind hvalue
        exact .absent hlast
      · exact .given rfl hlast
    · exact absurd List.mem_cons_self (h new)
  · rintro (⟨rfl, hlast⟩ | h)
    · exact .given (List.cons_append ..).symm hlast
    · exact .given (List.nil_append _).symm h

private theorem lastOf_cons_of_ne {s : Setting} {settings : List Setting} (hs : ∀ v, kind v ≠ s) :
    LastOf kind (s :: settings) default value ↔ LastOf kind settings default value := by
  constructor
  · rintro (⟨h, hlast⟩ | h)
    · rcases List.cons_eq_append_iff.mp h with ⟨rfl, hcons⟩ | ⟨before, rfl, rfl⟩
      · exact absurd (List.cons.inj hcons).1 (hs _)
      · exact .given rfl hlast
    · exact .absent fun v hv ↦ h v (List.mem_cons_of_mem s hv)
  · rintro (⟨rfl, hlast⟩ | h)
    · exact .given (List.cons_append ..).symm hlast
    · refine .absent fun v hv ↦ ?_
      rcases List.mem_cons.mp hv with hv | hv
      · exact hs v hv
      · exact h v hv

end

/-- Settings are settled: of each kind the last one holds, and where there is none, what held
before. -/
@[mk_iff settled_iff]
structure Presentation.Settled (p : Presentation) (settings : List Setting) (q : Presentation) :
    Prop where
  /-- The last severity. -/
  severity : LastOf .severity settings p.severity q.severity
  /-- The last message. -/
  message : LastOf .message settings p.message q.message
  /-- The last colour mode. -/
  color : LastOf .color settings p.color q.color

/-- **Settling one after another** lets the last of each kind hold. -/
theorem foldl_set_eq_iff {p q : Presentation} {settings : List Setting} :
    settings.foldl Presentation.set p = q ↔ p.Settled settings q := by
  rw [Presentation.settled_iff]
  induction settings generalizing p with
  | nil =>
    obtain ⟨severity, message, color⟩ := p
    obtain ⟨severity', message', color'⟩ := q
    simp [lastOf_nil_iff, eq_comm]
  | cons s settings ih =>
    -- a setting is the new default of its own kind and nothing to the two others
    rw [List.foldl_cons, ih]
    cases s with
    | severity s =>
      rw [lastOf_cons_iff fun _ _ ↦ Setting.severity.inj, lastOf_cons_of_ne (by simp),
        lastOf_cons_of_ne (by simp)]
      rfl
    | message text =>
      rw [lastOf_cons_of_ne (by simp), lastOf_cons_iff fun _ _ ↦ Setting.message.inj,
        lastOf_cons_of_ne (by simp)]
      rfl
    | color m =>
      rw [lastOf_cons_of_ne (by simp), lastOf_cons_of_ne (by simp),
        lastOf_cons_iff fun _ _ ↦ Setting.color.inj]
      rfl

/-! ## Arguments -/

namespace Request

/-- The arguments that are options. -/
def optionsOf (arguments : List String) : List String := arguments.filter (Hyphenated ·)

/-- The arguments that are none. -/
def placesOf (arguments : List String) : List String := arguments.filter (¬Hyphenated ·)

section

variable {argument : String} {arguments : List String}

private theorem optionsOf_cons (h : Hyphenated argument) :
    optionsOf (argument :: arguments) = argument :: optionsOf arguments :=
  List.filter_cons_of_pos (decide_eq_true h)

private theorem placesOf_cons (h : Hyphenated argument) :
    placesOf (argument :: arguments) = placesOf arguments :=
  List.filter_cons_of_neg (by simpa using h)

private theorem optionsOf_cons_of_not (h : ¬Hyphenated argument) :
    optionsOf (argument :: arguments) = optionsOf arguments :=
  List.filter_cons_of_neg (by simpa using h)

private theorem placesOf_cons_of_not (h : ¬Hyphenated argument) :
    placesOf (argument :: arguments) = argument :: placesOf arguments :=
  List.filter_cons_of_pos (decide_eq_true h)

end

/-- Reads a request from the arguments that are no options. -/
def ofPlaces (presentation : Presentation) : List String → Except ArgumentError Request
  | [path, first] =>
    return { path, first := ← readTarget first, last := none, presentation }
  | [path, first, last] =>
    return { path, first := ← readTarget first, last := some (← readTarget last), presentation }
  | _ => throw .wrongCount

/-- Going through arguments is going through the options, and setting the others apart. -/
theorem readArguments_eq (p : Presentation) (places arguments : List String) :
    readArguments p places arguments
      = ((optionsOf arguments).foldlM Presentation.readOption p).map fun p ↦
          (p, places ++ placesOf arguments) := by
  induction arguments generalizing p places with
  | nil =>
    rw [readArguments, optionsOf, placesOf, List.filter_nil, List.filter_nil, List.append_nil]
    rfl
  | cons argument arguments ih =>
    rw [readArguments]
    by_cases h : Hyphenated argument
    · rw [if_pos (isOption_iff.mpr h), optionsOf_cons h, placesOf_cons h, List.foldlM_cons]
      cases p.readOption argument with
      | error e => rfl
      | ok q => exact ih q places
    · rw [if_neg fun hoption ↦ h (isOption_iff.mp hoption), optionsOf_cons_of_not h,
        placesOf_cons_of_not h, ih, List.append_assoc, List.singleton_append]

/-- Reading arguments is reading the options, and then the places. -/
theorem ofArguments_eq (arguments : List String) :
    ofArguments arguments
      = ((optionsOf arguments).foldlM Presentation.readOption {}).bind fun p ↦
          ofPlaces p (placesOf arguments) := by
  rw [ofArguments, readArguments_eq, List.nil_append]
  cases (optionsOf arguments).foldlM Presentation.readOption {} with
  | error e => rfl
  | ok p => rfl

/-- A text is read as a target. -/
def IsTarget (text : String) : Prop := ∃ t, Target.read text = .ok t

/-- A text is not read as a target, for the given reason. -/
def IsNoTarget (text : String) (e : TargetError) : Prop := Target.read text = .error e

private theorem isTarget_or_isNoTarget (text : String) :
    IsTarget text ∨ ∃ e, IsNoTarget text e := by
  rcases h : Target.read text with e | t
  · exact .inr ⟨e, h⟩
  · exact .inl ⟨t, h⟩

/-- A request is what options and places ask for. -/
structure Given (options places : List String) (r : Request) : Prop where
  /-- Every option is understood, and the last of each kind holds. -/
  presentation : ∃ settings : List Setting, options = settings.map Setting.option ∧
    Presentation.Settled {} settings r.presentation
  /-- The first place is the path. The others are read as targets: one for a place to point at, two
  for the ends of a span. -/
  places : ∃ texts, places = r.path :: texts ∧
    texts.map Target.read = (r.first :: r.last.toList).map .ok

/-- Options and places are no request. -/
inductive Rejected (options places : List String) : ArgumentError → Prop
  /-- An option is bad. -/
  | option {e : ArgumentError} (h : FirstBad Understood BadOption options e) :
    Rejected options places e
  /-- There are too few or too many places. -/
  | count (hoptions : ∀ a ∈ options, Understood a)
    (hcount : ¬(places.length = 2 ∨ places.length = 3)) : Rejected options places .wrongCount
  /-- A place is bad. -/
  | target {e : TargetError} (hoptions : ∀ a ∈ options, Understood a)
    (hcount : places.length = 2 ∨ places.length = 3)
    (h : FirstBad IsTarget IsNoTarget places.tail e) : Rejected options places (.target e)

variable {options places arguments texts : List String} {path : String}

private theorem readTarget_eq_ok {text : String} {t : Target} (h : Target.read text = .ok t) :
    readTarget text = .ok t := by
  rw [readTarget, h]
  rfl

private theorem readTarget_eq_error {text : String} {e : TargetError} (h : IsNoTarget text e) :
    readTarget text = .error (.target e) := by
  rw [readTarget, h]
  rfl

private theorem ofPlaces_of_map_read {first : Target} {last : Option Target}
    (h : texts.map Target.read = (first :: last.toList).map .ok) (p : Presentation) :
    ofPlaces p (path :: texts) = .ok ⟨path, first, last, p⟩ := by
  obtain ⟨text, rest, rfl, hfirst, hrest⟩ := List.map_eq_cons_iff.mp h
  cases last with
  | none =>
    obtain rfl := List.map_eq_nil_iff.mp hrest
    rw [ofPlaces, readTarget_eq_ok hfirst]
    rfl
  | some last =>
    obtain ⟨text', rest', rfl, hlast, hnil⟩ := List.map_eq_cons_iff.mp hrest
    obtain rfl := List.map_eq_nil_iff.mp hnil
    rw [ofPlaces, readTarget_eq_ok hfirst, readTarget_eq_ok hlast]
    rfl

private theorem ofPlaces_of_length_ne (h : ¬(places.length = 2 ∨ places.length = 3))
    (p : Presentation) : ofPlaces p places = .error .wrongCount := by
  fun_cases ofPlaces p places with
  | case1 path first => simp at h
  | case2 path first last => simp at h
  | case3 => rfl

private theorem ofPlaces_of_firstBad {e : TargetError}
    (hcount : places.length = 2 ∨ places.length = 3)
    (h : FirstBad IsTarget IsNoTarget places.tail e) (p : Presentation) :
    ofPlaces p places = .error (.target e) := by
  rcases hcount with hcount | hcount
  · obtain ⟨path, text, rfl⟩ := List.length_eq_two.mp hcount
    have hbad : IsNoTarget text e := by
      simpa [firstBad_cons_iff, not_firstBad_nil] using h
    rw [ofPlaces, readTarget_eq_error hbad]
    rfl
  · obtain ⟨path, text, text', rfl⟩ := List.length_eq_three.mp hcount
    have hbad : IsNoTarget text e ∨ IsTarget text ∧ IsNoTarget text' e := by
      simpa [firstBad_cons_iff, not_firstBad_nil] using h
    rcases hbad with hbad | ⟨⟨t, ht⟩, hbad⟩
    · rw [ofPlaces, readTarget_eq_error hbad]
      rfl
    · rw [ofPlaces, readTarget_eq_ok ht, readTarget_eq_error hbad]
      rfl

private theorem Given.ofArguments_eq {r : Request}
    (h : Given (optionsOf arguments) (placesOf arguments) r) :
    ofArguments arguments = .ok r := by
  obtain ⟨⟨settings, hoptions, hsettled⟩, texts, hplaces, htexts⟩ := h
  rw [Request.ofArguments_eq, hoptions, hplaces, foldlM_readOption_map,
    foldl_set_eq_iff.mpr hsettled]
  exact ofPlaces_of_map_read htexts r.presentation

private theorem Rejected.ofArguments_eq {e : ArgumentError}
    (h : Rejected (optionsOf arguments) (placesOf arguments) e) :
    ofArguments arguments = .error e := by
  rw [Request.ofArguments_eq]
  cases h with
  | option h =>
    rw [h.foldlM_readOption_eq]
    rfl
  | count hoptions hcount =>
    obtain ⟨settings, hsettings⟩ := exists_map_option_eq hoptions
    rw [hsettings, foldlM_readOption_map]
    exact ofPlaces_of_length_ne hcount _
  | target hoptions hcount h =>
    obtain ⟨settings, hsettings⟩ := exists_map_option_eq hoptions
    rw [hsettings, foldlM_readOption_map]
    exact ofPlaces_of_firstBad hcount h _

private theorem exists_places (hcount : places.length = 2 ∨ places.length = 3)
    (h : ∀ text ∈ places.tail, IsTarget text) :
    ∃ path texts first, ∃ last : Option Target, places = path :: texts ∧
      texts.map Target.read = (first :: last.toList).map .ok := by
  rcases hcount with hcount | hcount
  · obtain ⟨path, text, rfl⟩ := List.length_eq_two.mp hcount
    obtain ⟨t, ht⟩ := h text (by simp)
    exact ⟨path, [text], t, none, rfl, by simp [ht]⟩
  · obtain ⟨path, text, text', rfl⟩ := List.length_eq_three.mp hcount
    obtain ⟨t, ht⟩ := h text (by simp)
    obtain ⟨u, hu⟩ := h text' (by simp)
    exact ⟨path, [text, text'], t, some u, rfl, by simp [ht, hu]⟩

/-- Options and places are a request, or something is wrong with them. -/
theorem exists_given_or_rejected (options places : List String) :
    (∃ r, Given options places r) ∨ ∃ e, Rejected options places e := by
  rcases forall_good_or_firstBad understood_or_badOption options with hoptions | ⟨e, he⟩
  · by_cases hcount : places.length = 2 ∨ places.length = 3
    · rcases forall_good_or_firstBad isTarget_or_isNoTarget places.tail with htargets | ⟨e, he⟩
      · obtain ⟨settings, hsettings⟩ := exists_map_option_eq hoptions
        obtain ⟨path, texts, first, last, hplaces, htexts⟩ := exists_places hcount htargets
        exact .inl ⟨⟨path, first, last, settings.foldl Presentation.set {}⟩,
          ⟨settings, hsettings, foldl_set_eq_iff.mp rfl⟩, texts, hplaces, htexts⟩
      · exact .inr ⟨_, .target hoptions hcount he⟩
    · exact .inr ⟨_, .count hoptions hcount⟩
  · exact .inr ⟨e, .option he⟩

/-- **Requests are read from options and places.** Arguments that start with two hyphens are
options, the others are places. Arguments are a request exactly if each option is understood, there
are two or three places, and all of them but the first are targets; it has the first as its path,
the targets, and of each kind of option the last one given. Otherwise the error is that of the first
bad option, if there is one, then that of a wrong number of places, and then that of the first bad
target. So arguments that have the same options in the same order, and the same places in the same
order, are read alike. -/
theorem ofArguments_of_options_and_places (arguments : List String) :
    (∀ r, ofArguments arguments = .ok r ↔
        Given (optionsOf arguments) (placesOf arguments) r) ∧
      (∀ e, ofArguments arguments = .error e ↔
        Rejected (optionsOf arguments) (placesOf arguments) e) ∧
      ∀ other : List String, optionsOf other = optionsOf arguments →
        placesOf other = placesOf arguments → ofArguments other = ofArguments arguments := by
  obtain ⟨hok, herror⟩ := eq_iff_of_total (fun _ ↦ Given.ofArguments_eq)
    (fun _ ↦ Rejected.ofArguments_eq) (exists_given_or_rejected _ _)
  refine ⟨hok, herror, fun other hoptions hplaces ↦ ?_⟩
  rw [ofArguments_eq, ofArguments_eq, hoptions, hplaces]

/-- Options before, between and behind the places, and all of them in front. The severity is given
twice. -/
theorem ofArguments_of_options_and_places_mixed :
    let arguments := ["--severity=note", "f.txt", "1:5", "--color=never", "2:3", "--severity=info"]
    let other := ["--severity=note", "--color=never", "--severity=info", "f.txt", "1:5", "2:3"]
    let request : Request :=
      ⟨"f.txt", ⟨1, 5⟩, some ⟨2, 3⟩, { severity := .info, color := .never }⟩
    optionsOf other = optionsOf arguments ∧ placesOf other = placesOf arguments ∧
      ofArguments other = ofArguments arguments ∧ ofArguments arguments = .ok request := by
  intro arguments other request
  have hoptions : optionsOf other = optionsOf arguments := by decide
  have hplaces : placesOf other = placesOf arguments := by decide
  obtain ⟨hok, -, hother⟩ := ofArguments_of_options_and_places arguments
  refine ⟨hoptions, hplaces, hother other hoptions hplaces, (hok request).mpr ⟨?_, ?_⟩⟩
  · exact ⟨[.severity .note, .color .never, .severity .info], by decide, foldl_set_eq_iff.mp rfl⟩
  · exact ⟨["1:5", "2:3"], by decide, by decide⟩

end Request

end Linemark
