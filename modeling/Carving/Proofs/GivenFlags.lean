import Mathlib.Data.List.TakeWhile
import Carving.Console.Options

/-!
# Flags among the arguments

Arguments are read one after another (`readAll_cons`), and a long flag can be set in one way only:
it is set exactly if its argument is given (`has_parse`). The argument that asks for a dry run
can be left out, and then all other options are the same (`parse_without_dryRun`).
-/

namespace Carving.Console

theorem bind_eq_ok {ε α β : Type} {x : Except ε α} {f : α → Except ε β} {b : β} :
    x >>= f = .ok b ↔ ∃ a, x = .ok a ∧ f a = .ok b := by
  cases x with
  | error e => exact ⟨nofun, fun ⟨_, h, _⟩ => nomatch h⟩
  | ok a => exact ⟨fun h => ⟨a, rfl, h⟩, fun ⟨_, h, h'⟩ => by cases h; exact h'⟩

/-- The argument that sets a flag. -/
def Flag.argument : Flag → OsText
  | verbose => "--verbose"
  | carve => "--carve"
  | commands => "--commands"
  | dryRun => "--dry-run"
  | force => "--force"

theorem Flag.argument_injective {flag option : Flag} (h : flag.argument = option.argument) :
    flag = option := by
  cases flag <;> cases option <;> first | rfl | exact absurd h (by decide)

theorem Flag.argument_eq (flag : Flag) :
    ∃ text, flag.argument = 0x2D :: 0x2D :: text ∧ equalsSign ∉ text := by
  cases flag <;> exact ⟨_, rfl, by decide⟩

theorem Switch.ofName?_eq_flag {name : OsText} {option : Flag} :
    name.string?.bind Switch.ofName? = some (.flag option)
      ↔ 0x2D :: 0x2D :: name = option.argument := by
  constructor
  · intro h
    obtain ⟨text, htext, hswitch⟩ := Option.bind_eq_some_iff.1 h
    obtain rfl := OsText.string?_eq_some.1 htext
    clear h
    unfold Switch.ofName? at hswitch
    split at hswitch <;> cases hswitch <;> rfl
  · intro h
    have hname (text : String) (ht : option.argument = 0x2D :: 0x2D :: OsText.ofString text) :
        name.string? = some text := by
      rw [OsText.string?_eq_some]
      exact (List.cons.inj (List.cons.inj (h.trans ht)).2).2
    cases option with
    | verbose => rw [hname "verbose" rfl]; rfl
    | carve => rw [hname "carve" rfl]; rfl
    | commands => rw [hname "commands" rfl]; rfl
    | dryRun => rw [hname "dry-run" rfl]; rfl
    | force => rw [hname "force" rfl]; rfl

theorem Switch.eq_verbose_of_ofLetter? {letter : Char} {option : Flag}
    (h : Switch.ofLetter? letter = some (.flag option)) : option = .verbose := by
  unfold Switch.ofLetter? at h
  split at h <;> cases h
  rfl

def Options.has (o : Options) : Flag → Bool
  | .verbose => 0 < o.verbosity
  | .carve => o.carve
  | .commands => o.commands
  | .dryRun => o.dryRun
  | .force => o.force

/-- The same options, with a dry run asked for or not. -/
def Options.rehearse (o : Options) (dry : Bool) : Options := { o with dryRun := dry }

theorem Options.rehearse_of_dryRun {o : Options} (h : o.dryRun) : o.rehearse true = o := by
  simp only [rehearse, ← h]

namespace Given

variable {g g' : Given} {flag option : Flag} {pending pending' : Option Valued}
  {valued : Valued} {argument value text letters : OsText} {arguments before behind : List OsText}

def has (g : Given) : Flag → Bool
  | .verbose => 0 < g.verbosity
  | .carve => g.carve
  | .commands => g.commands
  | .dryRun => g.dryRun
  | .force => g.force

/-- Reads an argument that is more than two dashes, and returns the option that still needs its
value. -/
def readOne (g : Given) (pending : Option Valued) (argument : OsText) :
    Except Refusal (Given × Option Valued) :=
  match argument, pending with
  | 0x2D :: 0x2D :: text, none => g.readLong text
  | 0x2D :: letter :: letters, none => g.readLetters (letter :: letters)
  | 0x2D :: _ :: _, some _ => .error .unusable
  | _, some option => do return (← g.give option argument, none)
  | _, none => .error .unusable

/-- Arguments are read one after another. -/
theorem readAll_cons (h : argument ≠ "--") (rest : List OsText) :
    g.readAll pending (argument :: rest)
      = g.readOne pending argument >>= fun (g, pending) => g.readAll pending rest := by
  rw [readAll.eq_def]
  unfold readOne
  dsimp only
  split
  · exact absurd rfl h
  · exact absurd rfl h
  · simp_all
  · simp_all
  · simp_all
    rfl
  · simp_all
  · simp_all
    rfl

/-- Two dashes are the last argument. -/
theorem readAll_dashes : g.readAll pending (OsText.ofString "--" :: arguments) = .ok g'
    ↔ pending = none ∧ arguments = [] ∧ g' = g := by
  have htext : OsText.ofString "--" = [0x2D, 0x2D] := by decide
  rw [readAll.eq_def]
  simp only [htext]
  cases pending with
  | some option => simp
  | none => cases arguments <;> simp [eq_comm]

/-- A long argument sets the flag that it names, or it gives a value or waits for one, or it is
refused. -/
theorem readLong_cases (text : OsText) :
    (∃ option : Flag, 0x2D :: 0x2D :: text = option.argument
        ∧ ∀ g : Given, g.readLong text = g.set option >>= fun g => pure (g, none))
      ∨ (∀ option : Flag, 0x2D :: 0x2D :: text ≠ option.argument)
        ∧ ((∃ valued value, ∀ g : Given,
            g.readLong text = g.give valued value >>= fun g => pure (g, none))
          ∨ (∃ valued, ∀ g : Given, g.readLong text = .ok (g, some valued))
          ∨ ∃ refusal, ∀ g : Given, g.readLong text = .error refusal) := by
  unfold readLong
  by_cases hequal : equalsSign ∈ text
  · -- The name of a flag holds no equals sign, so the value is one of another option.
    have hplain (option : Flag) : 0x2D :: 0x2D :: text ≠ option.argument := by
      intro heq
      obtain ⟨name, hname, hno⟩ := option.argument_eq
      rw [← heq, List.cons.injEq, List.cons.injEq] at hname
      exact hno (hname.2.2 ▸ hequal)
    have hvalue : text.dropWhile (· ≠ equalsSign) ≠ [] := fun hnil => by
      simpa using List.dropWhile_eq_nil_iff.1 hnil equalsSign hequal
    obtain ⟨c, value, hvalue⟩ := List.exists_cons_of_ne_nil hvalue
    refine .inr ⟨hplain, ?_⟩
    rw [hvalue]
    dsimp only
    rcases (OsText.string? (text.takeWhile (· ≠ equalsSign))).bind Switch.ofName? with
      _ | valued | option | _ | _
    · exact .inr (.inr ⟨_, fun _ => rfl⟩)
    · exact .inl ⟨valued, _, fun _ => rfl⟩
    · exact .inr (.inr ⟨_, fun _ => rfl⟩)
    · exact .inr (.inr ⟨_, fun _ => rfl⟩)
    · exact .inr (.inr ⟨_, fun _ => rfl⟩)
  · have hall : ∀ c ∈ text, decide (c ≠ equalsSign) = true := fun c hc => by
      simpa using fun heq : c = equalsSign => hequal (heq ▸ hc)
    rw [List.takeWhile_eq_self_iff.2 hall, List.dropWhile_eq_nil_iff.2 hall]
    dsimp only
    by_cases hflag : ∃ option, text.string?.bind Switch.ofName? = some (.flag option)
    · obtain ⟨option, hname⟩ := hflag
      rw [hname]
      exact .inl ⟨option, Switch.ofName?_eq_flag.1 hname, fun _ => rfl⟩
    · refine .inr ⟨fun option heq => hflag ⟨option, Switch.ofName?_eq_flag.2 heq⟩, ?_⟩
      rcases hname : text.string?.bind Switch.ofName? with _ | valued | option | _ | _
      · exact .inr (.inr ⟨_, fun _ => rfl⟩)
      · exact .inr (.inl ⟨valued, fun _ => rfl⟩)
      · exact absurd ⟨option, hname⟩ hflag
      · exact .inr (.inr ⟨_, fun _ => rfl⟩)
      · exact .inr (.inr ⟨_, fun _ => rfl⟩)

section Has

theorem has_set (h : g.set option = .ok g') : g'.has flag ↔ g.has flag ∨ flag = option := by
  cases option with
  | verbose =>
    cases h
    cases flag <;> simp [has]
  | _ =>
    obtain ⟨b, hb, h⟩ := bind_eq_ok.1 h
    unfold raise at hb
    split at hb <;> cases hb
    cases h
    cases flag <;> simp [has]

theorem has_give (h : g.give valued value = .ok g') : g'.has flag = g.has flag := by
  cases valued with
  | file | directory | output =>
    obtain ⟨_, -, h⟩ := bind_eq_ok.1 h
    cases h
    cases flag <;> rfl
  | format | maxChunks =>
    simp only [give] at h
    split at h <;> cases h
    cases flag <;> rfl

/-- Single letters set no flag but the one for more of the log. -/
theorem has_readLetters (hflag : flag ≠ .verbose)
    (h : g.readLetters letters = .ok (g', pending)) : g'.has flag = g.has flag := by
  fun_induction readLetters g letters with
  | case1 | case6 =>
    cases h
    rfl
  | case2 | case3 | case4 => cases h
  | case5 g letter rest option hletter ih =>
    obtain ⟨g1, hset, hrest⟩ := bind_eq_ok.1 h
    obtain rfl := Switch.eq_verbose_of_ofLetter? hletter
    rw [ih g1 hrest, Bool.eq_iff_iff, has_set hset]
    simp [hflag]
  | case7 | case8 =>
    obtain ⟨g1, hgive, h⟩ := bind_eq_ok.1 h
    cases h
    exact has_give hgive

theorem has_readLong (h : g.readLong text = .ok (g', pending)) :
    g'.has flag ↔ g.has flag ∨ 0x2D :: 0x2D :: text = flag.argument := by
  obtain ⟨option, hoption, hread⟩ | ⟨hplain, hread⟩ := readLong_cases text
  · obtain ⟨g1, hset, h⟩ := bind_eq_ok.1 ((hread g).symm.trans h)
    cases h
    rw [has_set hset, hoption]
    exact or_congr_right ⟨fun heq => heq ▸ rfl, fun heq => Flag.argument_injective heq.symm⟩
  · rw [or_iff_left (hplain flag)]
    obtain ⟨valued, value, hread⟩ | ⟨valued, hread⟩ | ⟨refusal, hread⟩ := hread
    · obtain ⟨g1, hgive, h⟩ := bind_eq_ok.1 ((hread g).symm.trans h)
      cases h
      rw [has_give hgive]
    · cases (hread g).symm.trans h
      rfl
    · cases (hread g).symm.trans h

theorem has_readOne (hflag : flag ≠ .verbose)
    (h : g.readOne pending argument = .ok (g', pending')) :
    g'.has flag ↔ g.has flag ∨ argument = flag.argument := by
  obtain ⟨name, hname, -⟩ := flag.argument_eq
  have harg (heq : argument = flag.argument) : argument = 0x2D :: 0x2D :: name := heq.trans hname
  unfold readOne at h
  split at h
  · rw [has_readLong h]
  · rename_i letter letters hne
    rw [has_readLetters hflag h, or_iff_left fun heq => ?_]
    exact hne (List.cons.inj (List.cons.inj (harg heq)).2).1
  · cases h
  · rename_i option hplain
    obtain ⟨g1, hgive, h⟩ := bind_eq_ok.1 h
    cases h
    rw [has_give hgive, or_iff_left fun heq => hplain _ _ (harg heq)]
  · cases h

theorem has_readAll (hflag : flag ≠ .verbose) (h : g.readAll pending arguments = .ok g') :
    g'.has flag ↔ g.has flag ∨ flag.argument ∈ arguments := by
  induction arguments generalizing g pending with
  | nil =>
    unfold readAll at h
    split at h <;> cases h
    simp
  | cons argument rest ih =>
    by_cases hdashes : argument = "--"
    · subst hdashes
      obtain ⟨-, rfl, rfl⟩ := readAll_dashes.1 h
      cases flag <;> simp [Flag.argument]
    · rw [readAll_cons hdashes] at h
      obtain ⟨⟨g1, pending1⟩, hone, h⟩ := bind_eq_ok.1 h
      rw [ih h, has_readOne hflag hone, or_assoc, List.mem_cons, eq_comm (a := argument)]

end Has

section Rehearse

def rehearse (g : Given) (dry : Bool) : Given := { g with dryRun := dry }

variable {dry : Bool}

theorem give_rehearse (h : g.give valued value = .ok g') :
    (g.rehearse dry).give valued value = .ok (g'.rehearse dry) := by
  cases valued with
  | file | directory | output =>
    obtain ⟨given, hgiven, h⟩ := bind_eq_ok.1 h
    cases h
    exact bind_eq_ok.2 ⟨given, hgiven, rfl⟩
  | format | maxChunks =>
    simp only [give] at h
    split at h <;> cases h
    simp only [give, rehearse, *]

theorem set_rehearse (hoption : option ≠ .dryRun) (h : g.set option = .ok g') :
    (g.rehearse dry).set option = .ok (g'.rehearse dry) := by
  cases option with
  | verbose =>
    cases h
    rfl
  | dryRun => exact absurd rfl hoption
  | carve | commands | force =>
    obtain ⟨raised, hraised, h⟩ := bind_eq_ok.1 h
    cases h
    exact bind_eq_ok.2 ⟨raised, hraised, rfl⟩

theorem readLetters_rehearse (h : g.readLetters letters = .ok (g', pending)) :
    (g.rehearse dry).readLetters letters = .ok (g'.rehearse dry, pending) := by
  fun_induction readLetters g letters with
  | case1 =>
    cases h
    rfl
  | case2 | case3 | case4 => cases h
  | case5 g letter rest option hletter ih =>
    obtain ⟨g1, hset, hrest⟩ := bind_eq_ok.1 h
    obtain rfl := Switch.eq_verbose_of_ofLetter? hletter
    rw [readLetters, hletter]
    exact bind_eq_ok.2 ⟨_, set_rehearse (by decide) hset, ih g1 hrest⟩
  | case6 g letter option hletter =>
    cases h
    rw [readLetters, hletter]
  | case7 g letter option hletter value =>
    obtain ⟨g1, hgive, h⟩ := bind_eq_ok.1 h
    cases h
    rw [readLetters, hletter]
    exact bind_eq_ok.2 ⟨_, give_rehearse hgive, rfl⟩
  | case8 g letter option hletter value hne hequal =>
    obtain ⟨g1, hgive, h⟩ := bind_eq_ok.1 h
    cases h
    simp only [readLetters, hletter, give_rehearse hgive]
    rfl

theorem readLong_rehearse (hne : 0x2D :: 0x2D :: text ≠ Flag.dryRun.argument)
    (h : g.readLong text = .ok (g', pending)) :
    (g.rehearse dry).readLong text = .ok (g'.rehearse dry, pending) := by
  obtain ⟨option, hoption, hread⟩ | ⟨-, ⟨valued, value, hread⟩ | ⟨valued, hread⟩ | ⟨_, hread⟩⟩ :=
    readLong_cases text
  · rw [hread] at h ⊢
    obtain ⟨g1, hset, h⟩ := bind_eq_ok.1 h
    cases h
    have hother : option ≠ .dryRun := fun heq => hne (heq ▸ hoption)
    exact bind_eq_ok.2 ⟨_, set_rehearse hother hset, rfl⟩
  · rw [hread] at h ⊢
    obtain ⟨g1, hgive, h⟩ := bind_eq_ok.1 h
    cases h
    exact bind_eq_ok.2 ⟨_, give_rehearse hgive, rfl⟩
  · rw [hread] at h ⊢
    cases h
    rfl
  · rw [hread] at h
    cases h

theorem readOne_rehearse (hne : argument ≠ Flag.dryRun.argument)
    (h : g.readOne pending argument = .ok (g', pending')) :
    (g.rehearse dry).readOne pending argument = .ok (g'.rehearse dry, pending') := by
  unfold readOne at h ⊢
  split at h
  · exact readLong_rehearse hne h
  · exact readLetters_rehearse h
  · cases h
  · rename_i option hplain
    obtain ⟨g1, hgive, h⟩ := bind_eq_ok.1 h
    cases h
    exact bind_eq_ok.2 ⟨_, give_rehearse hgive, rfl⟩
  · cases h

theorem readAll_rehearse (dry : Bool) (hnone : Flag.dryRun.argument ∉ arguments)
    (h : g.readAll pending arguments = .ok g') :
    (g.rehearse dry).readAll pending arguments = .ok (g'.rehearse dry) := by
  induction arguments generalizing g pending with
  | nil =>
    unfold readAll at h ⊢
    split at h <;> cases h
    rw [if_neg ‹_›]
  | cons argument rest ih =>
    obtain ⟨hne, hnone⟩ := not_or.1 (mt List.mem_cons.2 hnone)
    by_cases hdashes : argument = "--"
    · subst hdashes
      obtain ⟨rfl, rfl, rfl⟩ := readAll_dashes.1 h
      exact readAll_dashes.2 ⟨rfl, rfl, rfl⟩
    · rw [readAll_cons hdashes] at h ⊢
      obtain ⟨⟨g1, pending1⟩, hone, h⟩ := bind_eq_ok.1 h
      exact bind_eq_ok.2 ⟨_, readOne_rehearse (Ne.symm hne) hone, ih hnone h⟩

/-- A dry run can be asked for once. -/
theorem readOne_dryRun (h : g.readOne pending Flag.dryRun.argument = .ok (g', pending')) :
    pending = none ∧ g.dryRun = false ∧ g' = g.rehearse true ∧ pending' = none := by
  cases pending with
  | some option => cases h
  | none =>
    have hread : g.readOne none Flag.dryRun.argument
        = g.set .dryRun >>= fun g => pure (g, none) := rfl
    rw [hread] at h
    obtain ⟨g1, hset, h⟩ := bind_eq_ok.1 h
    obtain ⟨raised, hraised, hset⟩ := bind_eq_ok.1 hset
    cases h
    unfold raise at hraised
    split at hraised
    · cases hraised
    · rename_i hdry
      cases hraised
      cases hset
      exact ⟨rfl, eq_false_of_ne_true hdry, rfl, rfl⟩

theorem not_mem_of_dryRun (hdry : g.dryRun) (h : g.readAll pending arguments = .ok g') :
    Flag.dryRun.argument ∉ arguments := by
  induction arguments generalizing g pending with
  | nil => exact List.not_mem_nil
  | cons argument rest ih =>
    by_cases hdashes : argument = "--"
    · subst hdashes
      obtain ⟨-, rfl, -⟩ := readAll_dashes.1 h
      decide
    · rw [readAll_cons hdashes] at h
      obtain ⟨⟨g1, pending1⟩, hone, h⟩ := bind_eq_ok.1 h
      -- The flag is still set behind this argument, which would therefore be refused.
      have hstill : g1.has .dryRun := (has_readOne (by decide) hone).2 (.inl hdry)
      refine List.not_mem_cons_of_ne_of_not_mem ?_ (ih hstill h)
      rintro rfl
      obtain ⟨-, hnot, -⟩ := readOne_dryRun hone
      rw [hnot] at hdry
      cases hdry

theorem readAll_without (hdry : g.dryRun = false)
    (h : g.readAll pending (before ++ Flag.dryRun.argument :: behind) = .ok g') :
    g.readAll pending (before ++ behind) = .ok (g'.rehearse false) := by
  induction before generalizing g pending with
  | nil =>
    rw [List.nil_append, readAll_cons (by decide)] at h
    obtain ⟨⟨g1, pending1⟩, hone, h⟩ := bind_eq_ok.1 h
    obtain ⟨rfl, -, rfl, rfl⟩ := readOne_dryRun hone
    have hsame : (g.rehearse true).rehearse false = g := by simp only [rehearse, ← hdry]
    have hrest := readAll_rehearse false (not_mem_of_dryRun rfl h) h
    rwa [hsame] at hrest
  | cons argument rest ih =>
    by_cases hdashes : argument = "--"
    · subst hdashes
      obtain ⟨-, hnil, -⟩ := readAll_dashes.1 h
      simp at hnil
    · rw [List.cons_append, readAll_cons hdashes] at h ⊢
      obtain ⟨⟨g1, pending1⟩, hone, h⟩ := bind_eq_ok.1 h
      refine bind_eq_ok.2 ⟨_, hone, ih ?_ h⟩
      by_contra hdry1
      have hdry1 : g1.dryRun := by simpa using hdry1
      exact not_mem_of_dryRun hdry1 h (by simp)

end Rehearse

theorem options_eq_ok {o : Options} (flag : Flag) (h : g.options = .ok o) :
    o.has flag = g.has flag
      ∧ (g.rehearse false).options = .ok (o.rehearse false) := by
  obtain ⟨file, directory, output, maxChunks, formats, verbosity, carve, commands, dryRun, force⟩ :=
    g
  have hrun (input : Input) : (if commands && !carve then .error .unusable else .ok
        ⟨input, output.getD ".", verbosity, formats, maxChunks.getD 0, carve, commands, dryRun,
          force⟩ : Except Refusal Options) = .ok o →
      o.has flag = has ⟨file, directory, output, maxChunks, formats, verbosity, carve, commands,
          dryRun, force⟩ flag
        ∧ (if commands && !carve then .error .unusable else .ok
          ⟨input, output.getD ".", verbosity, formats, maxChunks.getD 0, carve, commands, false,
            force⟩ : Except Refusal Options) = .ok (o.rehearse false) := by
    intro h
    split at h <;> cases h
    exact ⟨by cases flag <;> rfl, if_neg ‹_›⟩
  rcases file with _ | path <;> rcases directory with _ | path'
  · cases h
  · exact hrun _ h
  · exact hrun _ h
  · cases h

end Given

namespace Options

variable {arguments before behind : List OsText} {o : Options}

/-- A long flag is set exactly if its argument is given. -/
theorem has_parse (flag : Flag) (hflag : flag ≠ .verbose) (h : Options.parse arguments = .ok o) :
    o.has flag ↔ flag.argument ∈ arguments := by
  obtain ⟨g, hread, hoptions⟩ := bind_eq_ok.1 h
  have hnone : ({} : Given).has flag = false := by cases flag <;> rfl
  rw [(Given.options_eq_ok flag hoptions).1, Given.has_readAll hflag hread, hnone]
  simp

theorem dryRun_of_parse
    (h : Options.parse (before ++ OsText.ofString "--dry-run" :: behind) = .ok o) : o.dryRun :=
  (has_parse .dryRun (by decide) h).2 (List.mem_append_right _ List.mem_cons_self)

/-- Without the argument that asks for a dry run, the other options are the same. -/
theorem parse_without_dryRun
    (h : Options.parse (before ++ OsText.ofString "--dry-run" :: behind) = .ok o) :
    Options.parse (before ++ behind) = .ok (o.rehearse false) := by
  obtain ⟨g, hread, hoptions⟩ := bind_eq_ok.1 h
  exact bind_eq_ok.2 ⟨_, Given.readAll_without rfl hread,
    (Given.options_eq_ok .dryRun hoptions).2⟩

end Options

end Carving.Console
