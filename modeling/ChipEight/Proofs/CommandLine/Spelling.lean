import Mathlib.Data.List.Induction
import Mathlib.Data.List.Nodup
import ChipEight.Proofs.CommandLine.Reader

namespace ChipEight.CommandLine

/-!
# Spellings of a command line

One request has many command lines: settings come in any order, each by its name or its letter,
with the number in a word of its own or joined on, and the program file stands between them or
behind two dashes. A parser that follows the conventions undoes all of them.

The words are rewritten from the left to the right, one setting after the other, until every number
is joined on (`same_of_spelled`); then the file is moved to the end (`same_of_arranged`). A command
line of that form is read by taking one setting after the other away from its end
(`exists_request`).
-/

/-- A number given to a setting, and how the number is written. -/
structure Choice where
  setting : Setting
  number : Nat
  signed : Bool
  zeros : Nat

namespace Choice

def text (c : Choice) : String := String.ofList (written c.signed c.zeros c.number)

def entry (c : Choice) : Setting × String := (c.setting, c.text)

def Fits (c : Choice) : Prop := c.number < c.setting.bound

instance (c : Choice) : Decidable c.Fits := inferInstanceAs (Decidable (_ < _))

end Choice

/-- The number chosen for a setting. -/
def numberOf? (choices : List Choice) (o : Setting) : Option Nat :=
  (choices.find? fun c => c.setting == o).map Choice.number

def byName (name number : String) : List (List String) := [[name, number], [name ++ "=" ++ number]]

def byLetter (letter number : String) : List (List String) :=
  [[letter, number], [letter ++ number], [letter ++ "=" ++ number]]

/-- The words that give a setting its number. -/
def Choice.spellings (c : Choice) : List (List String) :=
  match c.setting with
  | .clock => byLetter "-c" c.text ++ byName "--clock" c.text
  | .scale => byLetter "-s" c.text ++ byName "--scale" c.text
  | .seed => byName "--seed" c.text

/-- The words spell the choices, one after the other. -/
inductive Spelled : List Choice → List String → Prop
  | nil : Spelled [] []
  | cons {c : Choice} {choices : List Choice} {words rest : List String}
      (hwords : words ∈ c.spellings) (hrest : Spelled choices rest) :
      Spelled (c :: choices) (words ++ rest)

/-- The words spell the choices and name the program file: among the choices if the name cannot be
taken for an option, or else behind all of them and two dashes. -/
inductive Arranged (rom : String) : List Choice → List String → Prop
  | among {before after : List Choice} {front back : List String} (hplain : IsPlain rom)
      (hfront : Spelled before front) (hback : Spelled after back) :
      Arranged rom (before ++ after) (front ++ rom :: back)
  | behind {choices : List Choice} {words : List String} (hwords : Spelled choices words) :
      Arranged rom choices (words ++ ["--", rom])

namespace Choice

variable (c : Choice)

theorem denotes_text : Denotes c.text.toList c.number := by
  rw [text, String.toList_ofList]
  exact denotes_written c.signed c.zeros c.number

theorem text_ne : c.text ≠ "" := by
  obtain ⟨d, ds, hcons, -, -⟩ := c.denotes_text.exists_cons
  intro heq
  rw [heq] at hcons
  contradiction

/-- A number cannot be taken for an option. -/
theorem text_plain : c.text.toList.head? ≠ some '-' := by
  obtain ⟨d, ds, hcons, hminus, -⟩ := c.denotes_text.exists_cons
  rw [hcons, List.head?_cons]
  exact fun heq => hminus (Option.some.inj heq)

theorem text_joinable : c.text.toList.head? ≠ some '=' := by
  obtain ⟨d, ds, hcons, -, hequals⟩ := c.denotes_text.exists_cons
  rw [hcons, List.head?_cons]
  exact fun heq => hequals (Option.some.inj heq)

end Choice

section NumberOf

variable {choices : List Choice} {o : Setting}

theorem numberOf?_eq_none (h : o ∉ choices.map Choice.setting) : numberOf? choices o = none := by
  rw [numberOf?, Option.map_eq_none_iff, List.find?_eq_none]
  intro c hc heq
  exact h (beq_iff_eq.mp heq ▸ List.mem_map_of_mem hc)

theorem numberOf?_append_self {c : Choice} (h : c.setting ∉ choices.map Choice.setting) :
    numberOf? (choices ++ [c]) c.setting = some c.number := by
  have hbefore := numberOf?_eq_none h
  simp only [numberOf?, Option.map_eq_none_iff] at hbefore
  simp [numberOf?, hbefore]

theorem numberOf?_append_of_ne {c : Choice} (h : c.setting ≠ o) :
    numberOf? (choices ++ [c]) o = numberOf? choices o := by
  simp [numberOf?, h]

end NumberOf

theorem dashes_not_mem_joinedWords (given : List (Setting × String)) :
    "--" ∉ joinedWords given := by
  intro hmem
  obtain ⟨entry, -, heq⟩ := List.mem_map.mp hmem
  exact Progress.joined_ne entry.1 entry.2 (congrArg String.toList heq)

theorem IsPlain.ne_dashes {word : String} (h : IsPlain word) : "--" ≠ word := by
  rintro rfl
  rcases h with h | h
  · exact absurd h (by decide)
  · exact h rfl

section Parser

variable {ε : Type} {parse : List String → Except ε Request} (hparse : Conventions parse)
include hparse

section Choice

variable {c : Choice} {words front : List String} (hfront : "--" ∉ front) (back : List String)
include hfront

theorem same_of_mem_byName (h : words ∈ byName c.setting.flag c.text) :
    SameRequest parse (front ++ (words ++ back)) (front ++ c.setting.joined c.text :: back) := by
  rw [byName, List.mem_pair] at h
  rcases h with rfl | rfl
  · exact hparse.apart front back c.setting c.text hfront c.text_plain
  · exact SameRequest.refl _

theorem same_of_mem_byLetter {letter : Char} (hletter : c.setting.letter? = some letter)
    (h : words ∈ byLetter (letterFlag letter) c.text) :
    SameRequest parse (front ++ (words ++ back)) (front ++ c.setting.joined c.text :: back) := by
  simp only [byLetter, List.mem_cons, List.not_mem_nil, or_false] at h
  rcases h with rfl | rfl | rfl
  · exact hparse.letterApart front back c.setting letter c.text hletter hfront c.text_plain
  · exact hparse.letterJoined front back c.setting letter c.text hletter hfront c.text_ne
      c.text_joinable
  · exact hparse.letterEquals front back c.setting letter c.text hletter hfront

theorem same_of_mem_spellings (h : words ∈ c.spellings) :
    SameRequest parse (front ++ (words ++ back)) (front ++ c.setting.joined c.text :: back) := by
  obtain ⟨setting, number, signed, zeros⟩ := c
  cases setting with
  | clock =>
      rcases List.mem_append.mp h with h | h
      · exact same_of_mem_byLetter hparse hfront back rfl h
      · exact same_of_mem_byName hparse hfront back h
  | scale =>
      rcases List.mem_append.mp h with h | h
      · exact same_of_mem_byLetter hparse hfront back rfl h
      · exact same_of_mem_byName hparse hfront back h
  | seed => exact same_of_mem_byName hparse hfront back h

end Choice

/-- The words behind `front` may be exchanged for those that have every number joined on. -/
theorem same_of_spelled {choices : List Choice} {words front : List String}
    (h : Spelled choices words) (hfront : "--" ∉ front) (back : List String) :
    SameRequest parse (front ++ (words ++ back))
      (front ++ (joinedWords (choices.map Choice.entry) ++ back)) := by
  induction h generalizing front with
  | nil => exact SameRequest.refl _
  | @cons c choices words rest hwords _ ih =>
      have hnext : "--" ∉ front ++ [c.setting.joined c.text] := by
        rw [List.mem_append, not_or]
        exact ⟨hfront, dashes_not_mem_joinedWords [c.entry]⟩
      have hhead := same_of_mem_spellings hparse hfront (rest ++ back) hwords
      have htail := ih hnext
      rw [List.append_assoc, List.append_assoc] at htail
      rw [List.append_assoc]
      exact hhead.trans htail

/-- The file is moved to the end, past one setting after the other. -/
theorem same_of_file_among {rom : String} (hrom : rom ≠ "") (hplain : IsPlain rom)
    (before after : List (Setting × String)) :
    SameRequest parse (joinedWords before ++ rom :: joinedWords after)
      (joinedWords (before ++ after) ++ ["--", rom]) := by
  induction after generalizing before with
  | nil =>
      rw [List.append_nil]
      exact hparse.dashes before rom hrom hplain
  | cons entry after ih =>
      obtain ⟨o, value⟩ := entry
      have hhead := hparse.fileEarlier before rom o value (joinedWords after) hrom hplain
      have htail := ih (before ++ [(o, value)])
      rw [joinedWords_append, List.append_assoc, List.append_assoc] at htail
      exact hhead.trans htail

theorem same_of_arranged {rom : String} (hrom : rom ≠ "") {choices : List Choice}
    {words : List String} (h : Arranged rom choices words) :
    SameRequest parse words (joinedWords (choices.map Choice.entry) ++ ["--", rom]) := by
  cases h with
  | @among before after front back hplain hfront hback =>
      have hbefore := same_of_spelled hparse hfront List.not_mem_nil (rom :: back)
      have hnext : "--" ∉ joinedWords (before.map Choice.entry) ++ [rom] := by
        rw [List.mem_append, List.mem_singleton, not_or]
        exact ⟨dashes_not_mem_joinedWords _, hplain.ne_dashes⟩
      have hafter := same_of_spelled hparse hback hnext []
      rw [List.append_assoc, List.append_assoc, List.append_nil, List.append_nil] at hafter
      rw [List.map_append]
      exact (hbefore.trans hafter).trans (same_of_file_among hparse hrom hplain _ _)
  | behind hwords => exact same_of_spelled hparse hwords List.not_mem_nil ["--", rom]

section Joined

variable {rom : String} (hrom : rom ≠ "") {choices : List Choice}

include hrom in
/-- Every choice takes the place of the default and leaves the numbers of the others. -/
theorem exists_request (honce : (choices.map Choice.setting).Nodup)
    (hfits : ∀ c ∈ choices, c.Fits) :
    ∃ r, parse (joinedWords (choices.map Choice.entry) ++ ["--", rom]) = .ok r ∧ r.path = rom ∧
      ∀ o, r.number? o = (numberOf? choices o).or o.default? := by
  induction choices using List.reverseRecOn with
  | nil => exact ⟨.plain rom, hparse.defaults rom hrom, rfl, Request.number?_plain rom⟩
  | append_singleton choices c ih =>
      rw [List.map_append, List.map_singleton, List.nodup_append_comm, List.singleton_append,
        List.nodup_cons] at honce
      obtain ⟨hnew, honce⟩ := honce
      obtain ⟨hbefore, hc⟩ := List.forall_mem_append.mp hfits
      obtain ⟨r, hread, hpath, hnumber⟩ := ih honce hbefore
      have hfree : c.setting ∉ (choices.map Choice.entry).map Prod.fst := by
        rw [List.map_map]
        exact hnew
      have htake := hparse.takes (choices.map Choice.entry) c.setting c.text c.number rom r hrom
        hfree c.denotes_text (hc c (List.mem_singleton_self c)) hread
      refine ⟨r.withNumber c.number c.setting, ?_, (r.path_withNumber _ _).trans hpath, ?_⟩
      · rw [List.map_append, joinedWords_append, List.append_assoc]
        exact htake
      · intro o
        by_cases ho : c.setting = o
        · subst ho
          rw [r.number?_withNumber_self (hc c (List.mem_singleton_self c)),
            numberOf?_append_self hnew, Option.some_or]
        · rw [r.number?_withNumber_of_ne _ (Ne.symm ho), numberOf?_append_of_ne ho, hnumber]

theorem not_ok_of_not_fits (h : ∃ c ∈ choices, ¬ c.Fits) (r : Request) :
    parse (joinedWords (choices.map Choice.entry) ++ ["--", rom]) ≠ .ok r := by
  obtain ⟨c, hmem, hlarge⟩ := h
  obtain ⟨before, after, rfl⟩ := List.append_of_mem hmem
  rw [List.map_append, joinedWords_append, List.append_assoc]
  exact hparse.refuses _ _ c.setting c.text c.number (dashes_not_mem_joinedWords _) c.denotes_text
    (Nat.le_of_not_lt hlarge) r

end Joined

end Parser

/-- A parser that follows the conventions undoes every way to write a command line: settings each
given at most once, in any order and by any of their names, numbers with or without a plus sign and
with any zeros in front, and the program file anywhere among them or last behind two dashes. If all
numbers fit, the request has this file, these numbers and for the other settings what they have by
default; if some number is too large for its setting, there is no request. -/
theorem parsing_undoes_spelling {ε : Type} {parse : List String → Except ε Request}
    (hparse : Conventions parse) {rom : String} {choices : List Choice} {words : List String}
    (hrom : rom ≠ "") (honce : (choices.map Choice.setting).Nodup)
    (h : Arranged rom choices words) :
    ((∀ c ∈ choices, c.Fits) →
      ∃ r, parse words = .ok r ∧ r.path = rom ∧
        r.clock.toNat = (numberOf? choices .clock).getD 500 ∧
        r.scale.toNat = (numberOf? choices .scale).getD 10 ∧
        r.seed.map UInt64.toNat = numberOf? choices .seed) ∧
    ((∃ c ∈ choices, ¬ c.Fits) → ∃ e, parse words = .error e) := by
  have hsame := same_of_arranged hparse hrom h
  constructor
  · intro hfits
    obtain ⟨r, hread, hpath, hnumber⟩ := exists_request hparse hrom honce hfits
    refine ⟨r, (hsame r).mpr hread, hpath, ?_, ?_, ?_⟩
    · exact Option.some.inj ((hnumber .clock).trans Option.or_some)
    · exact Option.some.inj ((hnumber .scale).trans Option.or_some)
    · exact (hnumber .seed).trans Option.or_none
  · intro hlarge
    cases hread : parse words with
    | error e => exact ⟨e, rfl⟩
    | ok r => exact absurd ((hsame r).mp hread) (not_ok_of_not_fits hparse hlarge r)

/-- A file called `-` is no option, and a file called `--help` none behind two dashes. -/
theorem parsing_undoes_spelling_of_dash_files :
    (∃ r, read ["-s=+007", "-", "--seed", "18446744073709551615"] = .ok r ∧ r.path = "-" ∧
      r.clock.toNat = 500 ∧ r.scale.toNat = 7 ∧
      r.seed.map UInt64.toNat = some 18446744073709551615) ∧
    ∃ e, read ["--clock", "04294967296", "--", "--help"] = .error e := by
  have hscale : Choice.text ⟨.scale, 7, true, 2⟩ = "+007" := by
    simp [Choice.text, written, Numeral.digits, Numeral.digitChar]
  have hseed : Choice.text ⟨.seed, 18446744073709551615, false, 0⟩ = "18446744073709551615" := by
    simp [Choice.text, written, Numeral.digits, Numeral.digitChar]
  have hclock : Choice.text ⟨.clock, 4294967296, false, 1⟩ = "04294967296" := by
    simp [Choice.text, written, Numeral.digits, Numeral.digitChar]
  have hfront : Spelled [⟨.scale, 7, true, 2⟩] (["-s=+007"] ++ []) :=
    .cons (by rw [Choice.spellings, hscale]; decide) .nil
  have hback : Spelled [⟨.seed, 18446744073709551615, false, 0⟩]
      (["--seed", "18446744073709551615"] ++ []) :=
    .cons (by rw [Choice.spellings, hseed]; decide) .nil
  have hlarge : Spelled [⟨.clock, 4294967296, false, 1⟩] (["--clock", "04294967296"] ++ []) :=
    .cons (by rw [Choice.spellings, hclock]; decide) .nil
  have hamong : Arranged "-" _ ["-s=+007", "-", "--seed", "18446744073709551615"] :=
    .among (.inl rfl) hfront hback
  have hbehind : Arranged "--help" _ ["--clock", "04294967296", "--", "--help"] := .behind hlarge
  exact ⟨(parsing_undoes_spelling read_conventions (by decide) (by decide) hamong).1 (by decide),
    (parsing_undoes_spelling read_conventions (by decide) (by decide) hbehind).2 (by decide)⟩

end ChipEight.CommandLine
