/-
  JsonPath.Proofs.StandardInput — an expression given as the standard input or as an argument.

  The command reads an argument as it is, and the standard input without the line feeds
  at its end. Those are blanks, so nothing is lost with them, but for a carriage return in
  front of the first of them: the two together are a blank, and the carriage return alone
  is not. What is left then ends with a carriage return, as no path does.

  (1) `read_chomp`: the text without its line feeds reads as the text itself does, into
  the same tree, unless it ends with a carriage return. Then it is malformed.

  (2) `Request.ofArguments_cons`: an expression in front of arguments that name none
  changes nothing but the expression of what they ask for.

  (3) `runOptions_cases`: a run ends with what it prints or with an error of reading. No
  other error escapes.

  (4) `input_as_argument`: so a run exits and prints alike whichever way it is given the
  expression, but for such a carriage return. One line that ends with a carriage return
  and a line feed has it (`carriage_return_is_left`). How an engine draws a tree does not
  matter, as it is the same tree.
-/

import JsonPath.CommandLine
import JsonPath.Proofs.Ending
import JsonPath.Proofs.RoundTrip
import Mathlib.Data.List.DropRight

namespace JsonPath

open scoped Computability
open Lexicon Grammar

/-! ## Line feeds at the end -/

theorem Lexicon.replicate_mem_blanks (n : Nat) : List.replicate n (CodePoint.ofChar '\n') ∈ blank∗ := by
  induction n with
  | zero => exact Language.nil_mem_kstar _
  | succ n ih => exact append_mem_star (a := ['\n']) (.inr rfl) ih

namespace CommandLine

theorem chomp_append (a b : Text) : chomp (a ++ b) = if chomp b = [] then chomp a else a ++ chomp b := by
  simp only [chomp, List.reverse_append, List.dropWhile_append, List.reverse_eq_nil_iff, List.isEmpty_iff]
  split
  · rfl
  · rw [List.reverse_append, List.reverse_reverse]

theorem exists_chomp (s : Text) : ∃ u, u ∈ blank∗ ∧ s = chomp s ++ u := by
  refine ⟨s.rtakeWhile (· = .ofChar '\n'), ?_, List.rdropWhile_append_rtakeWhile.symm⟩
  have hall : ∀ c ∈ s.rtakeWhile (· = .ofChar '\n'), c = .ofChar '\n' :=
    fun c hc => by simpa using List.mem_rtakeWhile_imp hc
  rw [List.eq_replicate_length.mpr hall]
  exact replicate_mem_blanks _

theorem chomp_of_getLast {p : Text} {c : CodePoint} (hp : p.getLast? = some c) (hc : c ≠ .ofChar '\n') : chomp p = p := by
  obtain ⟨q, rfl⟩ := List.getLast?_eq_some_iff.mp hp
  simp [chomp, hc]

/-- Of a run of blanks a run of blanks is left, or a carriage return at the end. -/
theorem chomp_blanks {u : Text} (hu : u ∈ blank∗) : chomp u ∈ blank∗ ∨ (chomp u).getLast? = some (.ofChar '\r') := by
  refine star_induction (p := fun u => chomp u ∈ blank∗ ∨ (chomp u).getLast? = some (.ofChar '\r'))
    (.inl (Language.nil_mem_kstar _)) ?_ hu
  intro a ha b hb
  rw [chomp_append]
  split
  · rcases ha with ((rfl | rfl) | rfl) | rfl
    · exact .inl (append_mem_star (a := " ") (.inl (.inl (.inl rfl))) (Language.nil_mem_kstar _))
    · exact .inl (append_mem_star (a := "\t") (.inl (.inl (.inr rfl))) (Language.nil_mem_kstar _))
    · exact .inr rfl
    · exact .inl (Language.nil_mem_kstar _)
  · rename_i hne
    rcases hb with hb | hb
    · exact .inl (append_mem_star ha hb)
    · exact .inr (by rw [List.getLast?_append, hb, Option.some_or])

theorem chomp_spelled {d : Chain} {s : Text} (h : Spelled d.word s) :
    Spelled d.word (chomp s) ∨ (chomp s).getLast? = some (.ofChar '\r') := by
  obtain ⟨p, u, hp, hu, rfl⟩ := h
  obtain ⟨c, hc, hends⟩ := hp.exists_getLast
  have hp' : chomp p = p := by
    refine chomp_of_getLast hc ?_
    rintro rfl
    revert hends
    decide
  rw [chomp_append, hp']
  split
  · exact .inl ⟨p, [], hp, Language.nil_mem_kstar _, (List.append_nil p).symm⟩
  · rcases chomp_blanks hu with hu' | hcr
    · exact .inl ⟨p, _, hp, hu', rfl⟩
    · exact .inr (by rw [List.getLast?_append, hcr, Option.some_or])

theorem not_spelled_of_carriageReturn {d : Chain} {s : Text} (hs : s.getLast? = some (.ofChar '\r')) :
    ¬ Spelled d.word s := by
  intro h
  obtain ⟨c, hc, hends⟩ := h.exists_getLast
  obtain rfl := Option.some.inj (hs.symm.trans hc)
  revert hends
  decide

/-- Without the line feeds at its end a text reads as before, unless that leaves a carriage return there. -/
theorem read_chomp {s : Text} {t : Tree Token} :
    Rule.path.read (chomp s) = .ok t ↔ Rule.path.read s = .ok t ∧ (chomp s).getLast? ≠ some (.ofChar '\r') := by
  simp only [read_path_eq_ok_iff]
  constructor
  · rintro ⟨d, hd, rfl⟩
    obtain ⟨u, hu, hs⟩ := exists_chomp s
    refine ⟨⟨d, ?_, rfl⟩, fun hcr => not_spelled_of_carriageReturn hcr hd⟩
    obtain ⟨p, v, hp, hv, hchomp⟩ := hd
    exact ⟨p, v ++ u, hp, star_append_mem_star hv hu, by rw [hs, hchomp, List.append_assoc]⟩
  · rintro ⟨⟨d, hd, rfl⟩, hcr⟩
    exact ⟨d, (chomp_spelled hd).resolve_right hcr, rfl⟩

/-! ## An expression in front -/

/-- The same options with that expression. -/
def Options.naming (o : Options) (s : Text) : Options := { o with expression := some s }

/-- What `r` asks for is asked for by `r'` with the expression `s`, if `r` names none. -/
def Request.Named (s : Text) (r r' : Except ArgumentError Request) : Prop :=
  match r with
  | .error _ => ∃ e, r' = .error e
  | .ok .help => r' = .ok .help
  | .ok (.run o) => o.expression = none → r' = .ok (.run (o.naming s))

namespace Request

variable {o : Options} {extra : List Text} {as : List Argument}

theorem collect_plain {t : Text} (h : Argument.separator ∉ as) :
    collect o extra (.plain t :: as) =
      if o.expression.isSome then collect o (extra ++ [t]) as else collect { o with expression := some t } extra as := by
  rw [collect]
  rintro rest rfl
  exact h (List.mem_cons_self ..)

theorem expression_withBackend {o' : Options} {name : Text} (h : o.withBackend name = .ok o') :
    o'.expression = o.expression := by
  unfold Options.withBackend at h
  split at h
  · cases h
    rfl
  · split at h
    · cases h
      rfl
    · cases h

theorem withBackend_naming (s name : Text) : (o.naming s).withBackend name = (o.withBackend name).map (·.naming s) := by
  unfold Options.withBackend
  split
  · rfl
  · split <;> rfl

/-- The arguments are taken in alike, with the expression that `o` lacks or one more than it has. -/
theorem collect_naming (s : Text) : ∀ (as : List Argument) (o : Options) (extra extra' : List Text),
    Argument.separator ∉ as → (o.expression = none ∧ extra' = extra ∨ o.expression ≠ none ∧ extra' ≠ []) →
    Named s (collect o extra as) (collect (o.naming s) extra' as)
  | [], o, extra, extra', _, h => by
    rw [collect, collect]
    rcases h with ⟨-, rfl⟩ | ⟨hne, hextra⟩
    · split
      · exact fun _ => rfl
      · exact ⟨_, rfl⟩
    · rw [if_neg hextra]
      split
      · exact fun hnone => absurd hnone hne
      · exact ⟨_, rfl⟩
  | .plain t :: as, o, extra, extra', hsep, h => by
    have hsep' := fun hmem => hsep (List.mem_cons_of_mem _ hmem)
    rw [collect_plain hsep', collect_plain hsep', if_pos (show (o.naming s).expression.isSome = true from rfl)]
    split
    · rename_i hsome
      exact collect_naming s as o _ _ hsep' (.inr ⟨Option.isSome_iff_ne_none.mp hsome, by simp⟩)
    · exact collect_naming s as _ _ _ hsep' (.inr ⟨Option.some_ne_none t, by simp⟩)
  | .separator :: as, _, _, _, hsep, _ => absurd (List.mem_cons_self ..) hsep
  | .unknownSwitch t :: as, o, extra, extra', hsep, h => by
    rw [collect, collect]
    refine collect_naming s as o _ _ (fun hmem => hsep (List.mem_cons_of_mem _ hmem)) ?_
    rcases h with ⟨hnone, rfl⟩ | ⟨hne, -⟩
    · exact .inl ⟨hnone, rfl⟩
    · exact .inr ⟨hne, by simp⟩
  | .switch given :: as, o, extra, extra', hsep, h => by
    have hsep' := fun hmem => hsep (List.mem_cons_of_mem _ hmem)
    have hbackend (value : Text) (rest : List Argument) (hrest : ∀ o', o'.expression = o.expression →
        Named s (collect o' extra rest) (collect (o'.naming s) extra' rest)) :
        Named s (do collect (← o.withBackend value) extra rest)
          (do collect (← (o.naming s).withBackend value) extra' rest) := by
      rw [withBackend_naming]
      cases ho : o.withBackend value with
      | error e => exact ⟨e, rfl⟩
      | ok o' => exact hrest o' (expression_withBackend ho)
    cases hlast : given.last false with
    | error e =>
      rw [collect, collect, hlast]
      exact ⟨e, rfl⟩
    | ok found =>
      obtain ⟨helped, switch, short, value⟩ := found
      rw [collect, collect, hlast]
      cases switch with
      | help => exact rfl
      | tree =>
        cases helped with
        | true => exact rfl
        | false => exact collect_naming s as { o with tree := true } extra extra' hsep' h
      | canonical =>
        cases helped with
        | true => exact rfl
        | false => exact collect_naming s as { o with canonical := true } extra extra' hsep' h
      | backend =>
        cases value with
        | some value =>
          cases helped with
          | true => exact rfl
          | false => exact hbackend value as fun o' ho' => collect_naming s as o' extra extra' hsep' (by rwa [ho'])
        | none =>
          cases as with
          | nil => exact ⟨_, rfl⟩
          | cons a as =>
            cases a with
            | plain value =>
              have hsep'' := fun hmem => hsep' (List.mem_cons_of_mem _ hmem)
              cases helped with
              | true => exact rfl
              | false => exact hbackend value as fun o' ho' => collect_naming s as o' extra extra' hsep'' (by rwa [ho'])
            | _ => exact ⟨_, rfl⟩
termination_by as => as.length

end Request

/-- A text without a minus in front is no switch. -/
theorem Argument.ofText_plain {s : Text} (hs : s.head? ≠ some (.ofChar '-')) : ofText s = .ok (.plain s) := if_pos hs

theorem Argument.ofText_ne_separator (t : Text) : ofText t ≠ .ok separator := by
  unfold ofText
  repeat' split
  all_goals nofun

theorem Argument.separator_not_mem {arguments : List Text} (h : Text.ofString "--" ∉ arguments) {as : List Argument}
    (has : ofTexts arguments = .ok as) : separator ∉ as := by
  induction arguments generalizing as with
  | nil =>
    cases has
    exact List.not_mem_nil
  | cons t ts ih =>
    rw [List.mem_cons, not_or] at h
    rw [ofTexts, if_neg (Ne.symm h.1)] at has
    cases ha : ofText t with
    | error e =>
      rw [ha] at has
      cases has
    | ok a =>
      cases hts : ofTexts ts with
      | error e =>
        rw [ha, hts] at has
        cases has
      | ok as' =>
        rw [ha, hts] at has
        cases has
        rw [List.mem_cons, not_or]
        refine ⟨?_, ih h.2 hts⟩
        rintro rfl
        exact ofText_ne_separator t ha

/-- An expression in front of arguments without one is what they ask to be read. -/
theorem Request.ofArguments_cons {s : Text} (hs : s.head? ≠ some (.ofChar '-')) {arguments : List Text}
    (h : Text.ofString "--" ∉ arguments) : Named s (ofArguments arguments) (ofArguments (s :: arguments)) := by
  have hne : s ≠ Text.ofString "--" := by
    rintro rfl
    exact hs rfl
  cases has : Argument.ofTexts arguments with
  | error e =>
    rw [ofArguments, ofArguments, Argument.ofTexts, if_neg hne, Argument.ofText_plain hs, has]
    exact ⟨e, rfl⟩
  | ok as =>
    have hsep := Argument.separator_not_mem h has
    have hcons : ofArguments (s :: arguments) = collect .none [] (.plain s :: as) := by
      rw [ofArguments, Argument.ofTexts, if_neg hne, Argument.ofText_plain hs, has]
      rfl
    rw [hcons, collect_plain hsep, ofArguments, has]
    exact collect_naming s as .none [] [] hsep (.inl ⟨rfl, rfl⟩)

/-! ## The command -/

section Command

variable {env : Environment} {engine : Engine} {s : Text} {o : Options}

/-- Whether a choice is of a known backend does not depend on the source, and the rest is up to the rules. -/
theorem readChosen_eq_ok_iff (hengine : ∀ b, engine.FollowsGrammar b) (env : Environment) (choice : BackendChoice) :
    ∃ known : Prop, ∀ {s t}, readChosen env choice s engine = .ok t ↔ known ∧ Rule.path.read s = .ok t := by
  have hserves (asked : Option Text) : engine.Serves env asked := fun b _ => hengine b
  cases choice with
  | nameless => exact ⟨False, by simp [readChosen]⟩
  | unset => exact ⟨_, readTree_eq_ok_iff (hserves none)⟩
  | named b => exact ⟨_, readTree_eq_ok_iff (hserves (some b.name))⟩

theorem readChosen_chomp (hengine : ∀ b, engine.FollowsGrammar b) {choice : BackendChoice} {t : Tree Token} :
    readChosen env choice (chomp s) engine = .ok t ↔
      readChosen env choice s engine = .ok t ∧ (chomp s).getLast? ≠ some (.ofChar '\r') := by
  obtain ⟨known, hread⟩ := readChosen_eq_ok_iff hengine env choice
  rw [hread, hread, read_chomp, and_assoc]

theorem runOptions_of_error {input : Text} {e : ReadError}
    (h : readChosen env o.backend (o.expression.getD (chomp input)) engine = .error e) :
    runOptions env o input engine = .failed e.message env.debugEnabled := by
  simp only [runOptions, h]

/-- A tree that was read has a path, and the path what is shown of it. -/
theorem exists_shown {t : Tree Token} (h : Rule.path.read s = .ok t) :
    ∃ p text, t.path = .ok p ∧ shown o p = .ok text := by
  obtain ⟨p, hp, hexpression⟩ := lower_path h
  have hpath : t.path = .ok p := by rw [Tree.path, hexpression]
  obtain ⟨text, htext, -⟩ := hp.exists_text
  by_cases hcanonical : o.canonical
  · exact ⟨p, text, hpath, by rw [shown, if_pos hcanonical, htext]⟩
  · exact ⟨p, p.display, hpath, if_neg hcanonical⟩

theorem runOptions_cases (hengine : ∀ b, engine.FollowsGrammar b) (env : Environment) (o : Options) (input : Text) :
    (∃ e, readChosen env o.backend (o.expression.getD (chomp input)) engine = .error e ∧
      runOptions env o input engine = .failed e.message env.debugEnabled) ∨
    ∃ out, runOptions env o input engine = .printed out env.debugEnabled := by
  cases h : readChosen env o.backend (o.expression.getD (chomp input)) engine with
  | error e => exact .inl ⟨e, rfl, runOptions_of_error h⟩
  | ok t =>
    obtain ⟨known, hread⟩ := readChosen_eq_ok_iff hengine env o.backend
    obtain ⟨p, text, hpath, htext⟩ := exists_shown (o := o) (hread.mp h).2
    by_cases htree : o.tree
    · exact .inr ⟨engine.outline t, by simp only [runOptions, h, htree, if_true]⟩
    · exact .inr ⟨text ++ "\n", by simp [runOptions, h, htree, hpath, htext]⟩

/-- The canonical text of what was read is printed. -/
theorem runOptions_canonical {input t : Text} {x : Option Text} {p : Path}
    (h : readPath env none (x.getD (chomp input)) engine = .ok p) (ht : p.text = .ok t) :
    runOptions env ⟨x, .unset, false, true⟩ input engine = .printed (t ++ "\n") env.debugEnabled := by
  cases hread : readTree env none (x.getD (chomp input)) engine with
  | error e => simp [readPath, hread, Bind.bind, Except.bind] at h
  | ok u =>
    have hpath : u.path = .ok p := by simpa [readPath, hread, Bind.bind, Except.bind] using h
    simp [runOptions, readChosen, hread, hpath, shown, ht]

/-- What is read from the same tree is shown alike. -/
theorem runOptions_naming {input : Text} (ho : o.expression = none) {t : Tree Token}
    (h : readChosen env o.backend (chomp s) engine = .ok t) (h' : readChosen env o.backend s engine = .ok t) :
    runOptions env o s engine = runOptions env (o.naming s) input engine := by
  have hleft : readChosen env o.backend (o.expression.getD (chomp s)) engine = .ok t := by rwa [ho]
  have hright : readChosen env (o.naming s).backend ((o.naming s).expression.getD (chomp input)) engine = .ok t := h'
  simp only [runOptions, hleft, hright]
  rfl

theorem runOptions_agrees (hengine : ∀ b, engine.FollowsGrammar b) (input : Text) (ho : o.expression = none)
    (hs : (chomp s).getLast? ≠ some (.ofChar '\r')) :
    (runOptions env o s engine).exit = (runOptions env (o.naming s) input engine).exit ∧
      (runOptions env o s engine).out = (runOptions env (o.naming s) input engine).out := by
  cases h : readChosen env o.backend (chomp s) engine with
  | ok t =>
    rw [runOptions_naming ho h ((readChosen_chomp hengine).mp h).1]
    exact ⟨rfl, rfl⟩
  | error e =>
    cases h' : readChosen env o.backend s engine with
    | ok t =>
      rw [(readChosen_chomp hengine).mpr ⟨h', hs⟩] at h
      cases h
    | error e' =>
      rw [runOptions_of_error (o := o) (by rwa [ho]), runOptions_of_error (o := o.naming s) (e := e') h']
      exact ⟨rfl, rfl⟩

theorem runOptions_of_carriageReturn (hengine : ∀ b, engine.FollowsGrammar b) (ho : o.expression = none)
    (hs : (chomp s).getLast? = some (.ofChar '\r')) :
    (runOptions env o s engine).exit = 1 ∧ (runOptions env o s engine).out = [] := by
  cases h : readChosen env o.backend (chomp s) engine with
  | ok t => exact absurd hs ((readChosen_chomp hengine).mp h).2
  | error e =>
    rw [runOptions_of_error (o := o) (by rwa [ho])]
    exact ⟨rfl, rfl⟩

end Command

/-- The standard input is read as an argument is, but for a carriage return that is left at its end. -/
theorem input_as_argument (env : Environment) (engine : Engine) (hengine : ∀ b, engine.FollowsGrammar b)
    (arguments : List Text) (s input : Text) (hs : s.head? ≠ some (.ofChar '-'))
    (hplain : Text.ofString "--" ∉ arguments)
    (hnone : ∀ o, Request.ofArguments arguments = .ok (.run o) → o.expression = none) :
    ((chomp s).getLast? ≠ some (.ofChar '\r') →
      (run env arguments s engine).exit = (run env (s :: arguments) input engine).exit ∧
        (run env arguments s engine).out = (run env (s :: arguments) input engine).out) ∧
    ((chomp s).getLast? = some (.ofChar '\r') → ∀ o, Request.ofArguments arguments = .ok (.run o) →
      (run env arguments s engine).exit = 1 ∧ (run env arguments s engine).out = []) := by
  have hnamed := Request.ofArguments_cons hs hplain
  cases hrequest : Request.ofArguments arguments with
  | error e =>
    rw [hrequest] at hnamed
    obtain ⟨e', he'⟩ := hnamed
    refine ⟨fun _ => ?_, nofun⟩
    simp only [run, hrequest, he']
    exact ⟨rfl, rfl⟩
  | ok request =>
    rw [hrequest] at hnamed
    cases request with
    | help =>
      have hhelp : Request.ofArguments (s :: arguments) = .ok .help := hnamed
      refine ⟨fun _ => ?_, nofun⟩
      simp only [run, hrequest, hhelp, and_self]
    | run o =>
      have ho := hnone o hrequest
      refine ⟨fun hcr => ?_, fun hcr o' ho' => ?_⟩
      · simp only [run, hrequest, hnamed ho]
        exact runOptions_agrees hengine input ho hcr
      · cases ho'
        simp only [run, hrequest]
        exact runOptions_of_carriageReturn hengine ho hcr

theorem input_as_argument_of_blanks :
    (run ⟨some "lalr", none⟩ ["--canonical"] "$ . a \r\n\t\n\n").exit =
        (run ⟨some "lalr", none⟩ ["$ . a \r\n\t\n\n", "--canonical"] []).exit ∧
      (run ⟨some "lalr", none⟩ ["--canonical"] "$ . a \r\n\t\n\n").out =
        (run ⟨some "lalr", none⟩ ["$ . a \r\n\t\n\n", "--canonical"] []).out := by
  have hrequest : Request.ofArguments ["--canonical"] = .ok (.run ⟨none, .unset, false, true⟩) := by decide +kernel
  have hnone : ∀ o, Request.ofArguments ["--canonical"] = .ok (.run o) → o.expression = none := by
    rintro o ho
    rw [hrequest] at ho
    cases ho
    rfl
  exact (input_as_argument ⟨some "lalr", none⟩ .ofRules Engine.ofRules_followsGrammar ["--canonical"]
    "$ . a \r\n\t\n\n" [] (by decide) (by decide) hnone).1 (by decide)

/-- A line that ends with a carriage return and a line feed is a path as an argument, and none as the input. -/
theorem carriage_return_is_left :
    (run ⟨none, none⟩ ["--canonical"] "$\r\n").exit = 1 ∧
      run ⟨none, none⟩ ["$\r\n", "--canonical"] [] = .printed "$\n" false := by
  have hrequest : Request.ofArguments ["$\r\n", "--canonical"] = .ok (.run ⟨some "$\r\n", .unset, false, true⟩) := by
    decide +kernel
  have hread : readPath ⟨none, none⟩ none ((some (Text.ofString "$\r\n")).getD (chomp [])) = .ok [.root] := by
    decide +kernel
  have htext : Path.text [.root] = .ok "$" := Path.text_singleton (Selector.text_of_head rfl rfl)
  refine ⟨by decide +kernel, ?_⟩
  simp only [run, hrequest]
  exact runOptions_canonical hread htext

end CommandLine

end JsonPath
