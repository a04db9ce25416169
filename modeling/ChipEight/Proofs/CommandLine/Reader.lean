import ChipEight.Proofs.CommandLine.Settings

namespace ChipEight.CommandLine

/-!
# The reader follows the conventions

A number in a word of its own is only held open when it is read, as is the name of the program file.
Whatever is held open is settled before the next word does anything. So a stage of reading that
waits for nothing more goes on like one in which everything is settled already (`ok_finish_iff`),
and the two ways to give a number differ at most in the error that is reported first.
-/

section Outcome

variable {α β : Type} {x : Except Stop α} {f g : α → Except Stop β} {b : β}

theorem bind_eq_ok_iff : x >>= f = .ok b ↔ ∃ a, x = .ok a ∧ f a = .ok b := by
  constructor
  · exact exists_of_bind_eq_ok
  · rintro ⟨a, rfl, hb⟩
    exact hb

theorem bind_eq_ok_congr (h : ∀ a, f a = .ok b ↔ g a = .ok b) :
    x >>= f = .ok b ↔ x >>= g = .ok b := by
  simp only [bind_eq_ok_iff, h]

/-- Only a reading that does not break off goes on. -/
theorem bind_congr_of_ok (h : ∀ a, x = .ok a → f a = g a) : x >>= f = x >>= g := by
  cases x with
  | error e => rfl
  | ok a => exact h a rfl

end Outcome

namespace Progress

/-- No setting waits for its number. -/
def Ready (p : Progress) : Prop := ∀ o, p.held ≠ .setting o none

/-- Read the words that are left, and ask for what was given. -/
def finish (p : Progress) (words : List (List Char)) : Except Stop Request :=
  p.takeAll words >>= fun q => q.settle >>= Given.request

variable {p q : Progress}

theorem settled_ready (g : Given) : Ready ⟨g, .nothing⟩ := fun _ h => nomatch h

theorem path_of_settle {g : Given} (h : p.settle = .ok g) : g.path = p.given.path := by
  unfold settle at h
  split at h
  · cases h; rfl
  · contradiction
  · cases h; rfl
  · contradiction
  · exact Given.path_of_assign h

theorem settle_path (g : Given) {word : List Char} (h : word ≠ []) :
    settle ⟨g, .path word⟩ = .ok g := by
  cases word with
  | nil => contradiction
  | cons c rest => rfl

/-! ## From word to word -/

theorem takeAll_cons {word : List Char} (h : word ≠ ['-', '-']) (rest : List (List Char)) :
    p.takeAll (word :: rest) = p.take word >>= fun q => q.takeAll rest := by
  rw [takeAll, if_neg h]

theorem finish_cons {word : List Char} (h : word ≠ ['-', '-']) (rest : List (List Char)) :
    p.finish (word :: rest) = p.take word >>= fun q => q.finish rest := by
  rw [finish, takeAll_cons h, bind_assoc]
  rfl

theorem takeAll_append {words : List (List Char)} (h : ['-', '-'] ∉ words)
    (rest : List (List Char)) :
    p.takeAll (words ++ rest) = p.takeAll words >>= fun q => q.takeAll rest := by
  induction words generalizing p with
  | nil => rfl
  | cons word words ih =>
      have hword : word ≠ ['-', '-'] := fun heq => h (heq ▸ List.mem_cons_self)
      have hwords : ['-', '-'] ∉ words := fun hmem => h (List.mem_cons_of_mem word hmem)
      rw [List.cons_append, takeAll_cons hword, takeAll_cons hword, bind_assoc]
      exact bind_congr fun q => ih hwords

theorem finish_append {words : List (List Char)} (h : ['-', '-'] ∉ words)
    (rest : List (List Char)) :
    p.finish (words ++ rest) = p.takeAll words >>= fun q => q.finish rest := by
  rw [finish, takeAll_append h, bind_assoc]
  rfl

theorem take_of_plain {word : List Char} (h : word = ['-'] ∨ word.head? ≠ some '-') :
    p.take word = p.takePlain word := by
  unfold take
  split
  · simp at h
  · simp at h
  · rfl

/-- No setting takes the name of the program file for its number. -/
theorem takePlain_of_ready {word : List Char} (h : p.Ready) :
    p.takePlain word = p.takePath word := by
  unfold takePlain
  split
  · next o heq => exact absurd heq (h o)
  · rfl

/-! ## What is held open -/

/-- Two stages that settle to the same and wait for nothing. -/
structure Alike (p q : Progress) : Prop where
  ready : p.Ready
  ready' : q.Ready
  settle : p.settle = q.settle
  path : p.given.path = q.given.path

namespace Alike

theorem takePath (h : p.Alike q) (word : List Char) : p.takePath word = q.takePath word := by
  rw [Progress.takePath, Progress.takePath, h.path, h.settle]

theorem stop (h : p.Alike q) (reason : Stop) : p.stop reason = q.stop reason := by
  rw [Progress.stop, Progress.stop, h.settle]

theorem takeSetting (h : p.Alike q) (o : Setting) (value : Option (List Char)) :
    p.takeSetting o value = q.takeSetting o value := by
  cases value <;> rw [Progress.takeSetting, Progress.takeSetting, h.settle]

theorem take (h : p.Alike q) (word : List Char) : p.take word = q.take word := by
  unfold Progress.take
  split
  · simp only [takeLong, h.stop, h.takeSetting]
  · simp only [takeLetter, h.stop, h.takeSetting]
  · rw [takePlain_of_ready h.ready, takePlain_of_ready h.ready', h.takePath]

theorem finish (h : p.Alike q) (words : List (List Char)) : p.finish words = q.finish words := by
  have hend : (p.settle >>= Given.request) = q.settle >>= Given.request := by rw [h.settle]
  cases words with
  | nil => exact hend
  | cons word rest =>
      by_cases hword : word = ['-', '-']
      · rw [Progress.finish, Progress.finish, takeAll, takeAll, if_pos hword, if_pos hword]
        cases rest with
        | nil => exact hend
        | cons path rest => rw [takePaths, takePaths, h.takePath]
      · rw [finish_cons hword, finish_cons hword, h.take]

end Alike

section SettleError

variable {e : Stop} (h : p.settle = .error e)
include h

theorem exists_error_takePath (word : List Char) : ∃ e', p.takePath word = .error e' := by
  rw [takePath, h]
  split <;> exact ⟨_, rfl⟩

theorem stop_of_error (reason : Stop) : p.stop reason = .error e := by
  rw [stop, h]
  rfl

theorem takeSetting_of_error (o : Setting) (value : Option (List Char)) :
    p.takeSetting o value = .error e := by
  cases value <;> rw [takeSetting, h] <;> rfl

theorem exists_error_takeLong (body : List Char) : ∃ e', p.takeLong body = .error e' := by
  simp only [takeLong, stop_of_error h, takeSetting_of_error h]
  split
  · split <;> exact ⟨_, rfl⟩
  · split
    · split <;> exact ⟨_, rfl⟩
    · split <;> exact ⟨_, rfl⟩

theorem exists_error_takeLetter (letter : Char) (rest : List Char) :
    ∃ e', p.takeLetter letter rest = .error e' := by
  simp only [takeLetter, stop_of_error h, takeSetting_of_error h]
  split
  · exact ⟨_, rfl⟩
  · split
    · exact ⟨_, rfl⟩
    · split <;> exact ⟨_, rfl⟩

/-- What cannot be settled is reported at the next word, if not something else about the word. -/
theorem exists_error_take (hready : p.Ready) (word : List Char) :
    ∃ e', p.take word = .error e' := by
  unfold take
  split
  · exact exists_error_takeLong h _
  · exact exists_error_takeLetter h _ _
  · rw [takePlain_of_ready hready]
    exact exists_error_takePath h _

theorem exists_error_finish (hready : p.Ready) (words : List (List Char)) :
    ∃ e', p.finish words = .error e' := by
  have hend : (p.settle >>= Given.request) = .error e := by
    rw [h]
    rfl
  cases words with
  | nil => exact ⟨e, hend⟩
  | cons word rest =>
      by_cases hword : word = ['-', '-']
      · rw [finish, takeAll, if_pos hword]
        cases rest with
        | nil => exact ⟨e, hend⟩
        | cons path rest =>
            obtain ⟨e', htake⟩ := exists_error_takePath h path
            rw [takePaths, htake]
            exact ⟨e', rfl⟩
      · obtain ⟨e', htake⟩ := exists_error_take h hready word
        rw [finish_cons hword, htake]
        exact ⟨e', rfl⟩

end SettleError

/-- A stage that waits for nothing goes on like one in which everything is settled. -/
theorem ok_finish_iff (hready : p.Ready) (words : List (List Char)) (r : Request) :
    p.finish words = .ok r ↔ ∃ g, p.settle = .ok g ∧ finish ⟨g, .nothing⟩ words = .ok r := by
  cases hsettle : p.settle with
  | error e =>
      obtain ⟨e', hfinish⟩ := exists_error_finish hsettle hready words
      simp [hfinish]
  | ok g =>
      have halike : p.Alike ⟨g, .nothing⟩ :=
        ⟨hready, settled_ready g, hsettle, (path_of_settle hsettle).symm⟩
      simp [halike.finish]

/-! ## One setting -/

section Setting

variable {o : Setting} {flag value : List Char}

/-- A number joined to its option is given to the setting at once. -/
theorem finish_joined (hflag : flag ≠ ['-', '-'])
    (htake : p.take flag = p.takeSetting o (some value)) (back : List (List Char)) :
    p.finish (flag :: back) =
      p.settle >>= fun g => g.assign o value >>= fun g => finish ⟨g, .nothing⟩ back := by
  rw [finish_cons hflag, htake, takeSetting, bind_assoc]
  refine bind_congr fun g => ?_
  rw [bind_assoc]
  rfl

/-- A number in a word of its own is held open. -/
theorem finish_apart (hflag : flag ≠ ['-', '-']) (htake : p.take flag = p.takeSetting o none)
    (hvalue : value.head? ≠ some '-') (back : List (List Char)) :
    p.finish (flag :: value :: back) =
      p.settle >>= fun g => finish ⟨g, .setting o (some value)⟩ back := by
  have hword : value ≠ ['-', '-'] := by
    rintro rfl
    simp at hvalue
  rw [finish_cons hflag, htake, takeSetting, bind_assoc]
  refine bind_congr fun g => ?_
  change finish ⟨g, .setting o none⟩ (value :: back) = _
  rw [finish_cons hword, take_of_plain (Or.inr hvalue)]
  rfl

theorem ok_finish_apart_iff {flag' : List Char} (hflag : flag ≠ ['-', '-'])
    (hflag' : flag' ≠ ['-', '-']) (htake : p.take flag = p.takeSetting o none)
    (htake' : p.take flag' = p.takeSetting o (some value)) (hvalue : value.head? ≠ some '-')
    (back : List (List Char)) (r : Request) :
    p.finish (flag :: value :: back) = .ok r ↔ p.finish (flag' :: back) = .ok r := by
  rw [finish_apart hflag htake hvalue, finish_joined hflag' htake']
  refine bind_eq_ok_congr fun g => ?_
  have hready : Ready ⟨g, .setting o (some value)⟩ := fun _ h => nomatch h
  rw [ok_finish_iff hready, bind_eq_ok_iff]
  rfl

theorem take_flag (o : Setting) : p.take o.flag.toList = p.takeSetting o none := by
  rw [Setting.flag, String.toList_append]
  cases o <;> rfl

theorem take_joined (o : Setting) (value : String) :
    p.take (o.joined value).toList = p.takeSetting o (some value.toList) := by
  rw [Setting.joined, Setting.flag, String.toList_append, String.toList_append,
    String.toList_append]
  cases o <;> rfl

variable {letter : Char} (hletter : o.letter? = some letter)
include hletter

theorem take_letterFlag : p.take (letterFlag letter).toList = p.takeSetting o none := by
  rw [letterFlag, String.toList_ofList]
  cases o <;> cases hletter <;> rfl

theorem take_letterEquals (value : String) :
    p.take (letterFlag letter ++ "=" ++ value).toList = p.takeSetting o (some value.toList) := by
  rw [letterFlag, String.toList_append, String.toList_append, String.toList_ofList]
  cases o <;> cases hletter <;> rfl

theorem take_letterJoined {value : String} (hvalue : value ≠ "")
    (hequals : value.toList.head? ≠ some '=') :
    p.take (letterFlag letter ++ value).toList = p.takeSetting o (some value.toList) := by
  have htake : p.take (letterFlag letter ++ value).toList = p.takeLetter letter value.toList := by
    rw [letterFlag, String.toList_append, String.toList_ofList]
    cases o <;> cases hletter <;> rfl
  have hknown : letter ≠ 'h' ∧ letter ≠ 'V' ∧ Setting.ofLetter? letter = some o := by
    cases o <;> cases hletter <;> decide
  rw [htake, takeLetter, if_neg hknown.1, if_neg hknown.2.1, hknown.2.2]
  · simpa using hvalue
  · rintro rest heq
    simp [heq] at hequals

theorem ne_dash_of_letter : letter ≠ '-' := by
  cases o <;> cases hletter <;> decide

end Setting

theorem flag_ne (o : Setting) : o.flag.toList ≠ ['-', '-'] := by
  cases o <;> decide

theorem joined_ne (o : Setting) (value : String) : (o.joined value).toList ≠ ['-', '-'] := by
  rw [Setting.joined, Setting.flag, String.toList_append, String.toList_append,
    String.toList_append]
  cases o <;> simp [Setting.long]

theorem letterFlag_append_ne {letter : Char} (h : letter ≠ '-') (rest : String) :
    (letterFlag letter ++ rest).toList ≠ ['-', '-'] := by
  simp [letterFlag, h]

/-! ## Many settings -/

/-- Joined values are given to their settings in order. -/
theorem finish_joinedWords (g : Given) (given : List (Setting × String))
    (rest : List (List Char)) :
    finish ⟨g, .nothing⟩ ((joinedWords given).map String.toList ++ rest) =
      g.assignAll given >>= fun g => finish ⟨g, .nothing⟩ rest := by
  induction given generalizing g with
  | nil => rfl
  | cons entry given ih =>
      obtain ⟨o, value⟩ := entry
      rw [joinedWords_cons, List.map_cons, List.cons_append,
        finish_joined (joined_ne o value) (take_joined o value)]
      simp only [ih]
      rw [Given.assignAll, List.foldlM_cons, bind_assoc]
      rfl

section Path

variable {g : Given} (hfree : g.path = none) {path : List Char} (hne : path ≠ [])
include hfree

theorem takePath_of_settled :
    takePath ⟨g, .nothing⟩ path = .ok ⟨g.withPath path, .path path⟩ := by
  rw [takePath, hfree]
  rfl

include hne

/-- The program file behind two dashes. -/
theorem finish_dashes : finish ⟨g, .nothing⟩ [['-', '-'], path] = (g.withPath path).request := by
  have htake : takeAll ⟨g, .nothing⟩ [['-', '-'], path] = takePath ⟨g, .nothing⟩ path :=
    bind_pure _
  rw [finish, htake, takePath_of_settled hfree]
  change settle ⟨g.withPath path, .path path⟩ >>= Given.request = _
  rw [settle_path _ hne]
  rfl

variable (hplain : path = ['-'] ∨ path.head? ≠ some '-')
include hplain

/-- The program file among the settings. -/
theorem finish_plain (rest : List (List Char)) :
    finish ⟨g, .nothing⟩ (path :: rest) = finish ⟨g.withPath path, .nothing⟩ rest := by
  have hdashes : path ≠ ['-', '-'] := by
    rintro rfl
    simp at hplain
  have halike : Alike ⟨g.withPath path, .path path⟩ ⟨g.withPath path, .nothing⟩ :=
    ⟨fun _ h => (nomatch h), settled_ready _, settle_path _ hne, rfl⟩
  rw [finish_cons hdashes, take_of_plain hplain, takePlain_of_ready (settled_ready g),
    takePath_of_settled hfree]
  exact halike.finish rest

theorem finish_plain_joined (o : Setting) (value : String) (back : List (List Char)) :
    finish ⟨g, .nothing⟩ (path :: (o.joined value).toList :: back) =
      finish ⟨g, .nothing⟩ ((o.joined value).toList :: path :: back) := by
  rw [finish_plain hfree hne hplain, finish_joined (joined_ne o value) (take_joined o value),
    finish_joined (joined_ne o value) (take_joined o value)]
  calc (g.withPath path).assign o value.toList >>= (fun g => finish ⟨g, .nothing⟩ back)
      = g.assign o value.toList >>= fun g => finish ⟨g.withPath path, .nothing⟩ back := by
        rw [Given.assign_withPath]
        exact bind_map_left _ _ _
    _ = g.assign o value.toList >>= fun g => finish ⟨g, .nothing⟩ (path :: back) :=
        bind_congr_of_ok fun g' hassign =>
          (finish_plain ((Given.path_of_assign hassign).trans hfree) hne hplain back).symm

end Path

end Progress

/-! ## Whole command lines -/

section Read

open Progress

theorem read_eq_finish (words : List String) :
    read words = start.finish (words.map String.toList) := rfl

section Front

variable {front : List String} (hfront : "--" ∉ front)
include hfront

theorem read_append (rest : List String) :
    read (front ++ rest) =
      start.takeAll (front.map String.toList) >>= fun p => p.finish (rest.map String.toList) := by
  have hdashes : ['-', '-'] ∉ front.map String.toList := by
    intro hmem
    obtain ⟨word, hword, heq⟩ := List.mem_map.mp hmem
    have hword' : word = "--" := String.toList_inj.mp heq
    exact hfront (hword' ▸ hword)
  rw [read_eq_finish, List.map_append, finish_append hdashes]

theorem sameRequest_of_finish {words words' : List String}
    (h : ∀ (p : Progress) r, p.finish (words.map String.toList) = .ok r ↔
      p.finish (words'.map String.toList) = .ok r) :
    SameRequest read (front ++ words) (front ++ words') := by
  intro r
  rw [read_append hfront, read_append hfront]
  exact bind_eq_ok_congr fun p => h p r

end Front

section Joined

variable (given : List (Setting × String))

theorem read_joinedWords (rest : List String) :
    read (joinedWords given ++ rest) =
      Given.nothing.assignAll given >>= fun g =>
        finish ⟨g, .nothing⟩ (rest.map String.toList) := by
  rw [read_eq_finish, List.map_append]
  exact finish_joinedWords Given.nothing given _

theorem sameRequest_of_settled {words words' : List String}
    (h : ∀ g : Given, g.path = none → finish ⟨g, .nothing⟩ (words.map String.toList) =
      finish ⟨g, .nothing⟩ (words'.map String.toList)) :
    SameRequest read (joinedWords given ++ words) (joinedWords given ++ words') := by
  intro r
  rw [read_joinedWords, read_joinedWords,
    bind_congr_of_ok fun g hall => h g (Given.path_of_assignAll hall)]

/-- What is read of a command line in which every value is joined on and the file stands last. -/
theorem read_joinedWords_dashes {path : String} (hpath : path ≠ "") :
    read (joinedWords given ++ ["--", path]) =
      Given.nothing.assignAll given >>= fun g => (g.withPath path.toList).request := by
  have hne : path.toList ≠ [] := by simpa using hpath
  rw [read_joinedWords]
  exact bind_congr_of_ok fun g hall => finish_dashes (Given.path_of_assignAll hall) hne

end Joined

end Read

/-- The reader is one of the parsers that follow the conventions. -/
theorem read_conventions : Conventions read where
  apart := by
    intro front back o value hfront hvalue
    exact sameRequest_of_finish hfront fun p r =>
      Progress.ok_finish_apart_iff (Progress.flag_ne o) (Progress.joined_ne o value)
        (Progress.take_flag o) (Progress.take_joined o value) hvalue _ r
  letterApart := by
    intro front back o letter value hletter hfront hvalue
    have hflag : (letterFlag letter).toList ≠ ['-', '-'] := by
      simp [letterFlag, Progress.ne_dash_of_letter hletter]
    exact sameRequest_of_finish hfront fun p r =>
      Progress.ok_finish_apart_iff hflag (Progress.joined_ne o value)
        (Progress.take_letterFlag hletter) (Progress.take_joined o value) hvalue _ r
  letterJoined := by
    intro front back o letter value hletter hfront hvalue hequals
    have hflag := Progress.letterFlag_append_ne (Progress.ne_dash_of_letter hletter) value
    refine sameRequest_of_finish hfront fun p r => ?_
    rw [List.map_cons, List.map_cons,
      Progress.finish_joined hflag (Progress.take_letterJoined hletter hvalue hequals),
      Progress.finish_joined (Progress.joined_ne o value) (Progress.take_joined o value)]
  letterEquals := by
    intro front back o letter value hletter hfront
    have hflag := Progress.letterFlag_append_ne (Progress.ne_dash_of_letter hletter) ("=" ++ value)
    rw [← String.append_assoc] at hflag
    refine sameRequest_of_finish hfront fun p r => ?_
    rw [List.map_cons, List.map_cons,
      Progress.finish_joined hflag (Progress.take_letterEquals hletter value),
      Progress.finish_joined (Progress.joined_ne o value) (Progress.take_joined o value)]
  fileEarlier := by
    intro given path o value back hpath hplain
    have hne : path.toList ≠ [] := by simpa using hpath
    exact sameRequest_of_settled given fun g hfree =>
      Progress.finish_plain_joined hfree hne hplain.toList_or o value _
  dashes := by
    intro given path hpath hplain
    have hne : path.toList ≠ [] := by simpa using hpath
    exact sameRequest_of_settled given fun g hfree =>
      (Progress.finish_plain hfree hne hplain.toList_or []).trans
        (Progress.finish_dashes hfree hne).symm
  defaults := by
    intro path hpath
    refine (read_joinedWords_dashes [] hpath).trans ?_
    rw [Given.assignAll, List.foldlM_nil, pure_bind, Given.request_nothing, String.ofList_toList]
  takes := by
    intro given o value n path r hpath hfree hvalue hfits hread
    rw [read_joinedWords_dashes given hpath] at hread
    obtain ⟨g, hall, hrequest⟩ := exists_of_bind_eq_ok hread
    have hnone : g.number? o = none :=
      (Given.number?_assignAll hall hfree).trans (Given.number?_nothing o)
    have hne : path.toList ≠ [] := by simpa using hpath
    have hassign := Given.assign_of_fits hvalue hnone hfits
    have hpathless : (g.keep n o).path = none :=
      (Given.path_of_assign hassign).trans (Given.path_of_assignAll hall)
    rw [read_joinedWords, hall]
    refine (Progress.finish_joined (Progress.joined_ne o value)
      (Progress.take_joined o value) _).trans ?_
    change (g.assign o value.toList >>= fun g => Progress.finish ⟨g, .nothing⟩ _) = _
    rw [hassign]
    exact (Progress.finish_dashes hpathless hne).trans (Given.request_keep hrequest n o)
  refuses := by
    intro front back o value n hfront hvalue hlarge r hread
    rw [read_append hfront] at hread
    obtain ⟨p, -, hfinish⟩ := exists_of_bind_eq_ok hread
    rw [List.map_cons, Progress.finish_joined (Progress.joined_ne o value)
      (Progress.take_joined o value)] at hfinish
    obtain ⟨g, -, hassign⟩ := exists_of_bind_eq_ok hfinish
    obtain ⟨e, herror⟩ := Given.exists_error_assign hvalue hlarge
    rw [herror] at hassign
    contradiction

end ChipEight.CommandLine
