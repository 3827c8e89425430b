import MatrixCalc.CommandLine

/-!
# Arguments

A flag for bracketed output and an expression can each be given or not, in either order, and after
two dashes an expression may begin with a dash. `Request.Spells` lists these spellings. They are all
that the command line takes, a request for the version or for help apart (`Taken.setAll_eq_ok_iff`),
and the program is asked for an expression or a session by exactly those that spell it
(`ofArguments_eq_iff`).

§1 spellings · §2 what the command line takes · §3 what it declines · §4 what it is asked for
-/

namespace MatrixCalc

namespace Request

/-! ## §1 Spellings -/

/-- An argument that is an expression: it does not begin with a dash, or it is only a dash. -/
def IsSource (argument : String) : Prop :=
  argument.toList.head? ≠ some '-' ∨ argument = "-"

/-- Arguments that give the flag for bracketed output or not, and an expression or none. -/
inductive Spells : List String → Bool → Option String → Prop where
  | nothing : Spells [] false none
  /-- The flag is given once. -/
  | flag {argument : String} {rest : List String} {given : Option String}
      (hflag : argument = "-b" ∨ argument = "--brackets") (h : Spells rest false given) :
      Spells (argument :: rest) true given
  /-- An expression is given once. -/
  | source {source : String} {rest : List String} {flag : Bool} (hsource : IsSource source)
      (h : Spells rest flag none) : Spells (source :: rest) flag (some source)
  /-- Two dashes without anything behind them. -/
  | dashes : Spells ["--"] false none
  /-- After two dashes anything is an expression. -/
  | dashesSource (source : String) : Spells ["--", source] false (some source)

variable {t u : Taken} {argument : String} {arguments : List String}

/-! ## §2 What the command line takes -/

theorem Taken.setBrackets_eq_ok_iff :
    t.setBrackets = .ok u ↔ t.brackets = false ∧ u = ⟨true, t.source?⟩ := by
  obtain ⟨brackets, source?⟩ := t
  cases brackets <;> simp [setBrackets, eq_comm]

theorem Taken.setSource_eq_ok_iff :
    t.setSource argument = .ok u ↔ t.source? = none ∧ u = ⟨t.brackets, some argument⟩ := by
  obtain ⟨brackets, source?⟩ := t
  cases source? <;> simp [setSource, eq_comm]

theorem Taken.setFlags_cons_eq_ok {c : Char} {letters : List Char}
    (h : t.setFlags (c :: letters) = .ok u) :
    c = 'b' ∧ ∃ v, t.setBrackets = .ok v ∧ v.setFlags letters = .ok u := by
  unfold setFlags at h
  split at h
  · cases hset : t.setBrackets with
    | ok v =>
      rw [hset] at h
      exact ⟨rfl, v, rfl, h⟩
    | error r =>
      rw [hset] at h
      cases h
  · cases h
  · cases h
  · cases h

/-- Short flags are taken one at a time, since there is only one and it may be given once. -/
theorem Taken.setFlags_cons_eq_ok_iff {c : Char} {letters : List Char} :
    t.setFlags (c :: letters) = .ok u ↔
      c = 'b' ∧ letters = [] ∧ t.brackets = false ∧ u = ⟨true, t.source?⟩ := by
  constructor
  · intro h
    obtain ⟨rfl, v, hv, h⟩ := setFlags_cons_eq_ok h
    obtain ⟨hbrackets, rfl⟩ := setBrackets_eq_ok_iff.1 hv
    cases letters with
    | nil =>
      cases h
      exact ⟨rfl, rfl, hbrackets, rfl⟩
    | cons d letters =>
      obtain ⟨-, w, hw, -⟩ := setFlags_cons_eq_ok h
      cases (setBrackets_eq_ok_iff.1 hw).1
  · rintro ⟨rfl, rfl, hbrackets, rfl⟩
    simp only [setFlags, setBrackets_eq_ok_iff.2 ⟨hbrackets, rfl⟩]

/-- An argument that can be taken is a spelling of the flag or an expression. -/
theorem Taken.setArgument_eq_ok_iff :
    t.setArgument argument = .ok u ↔
      (argument = "-b" ∨ argument = "--brackets") ∧ t.brackets = false ∧ u = ⟨true, t.source?⟩ ∨
        IsSource argument ∧ t.source? = none ∧ u = ⟨t.brackets, some argument⟩ := by
  have hname {cs : List Char} (h : argument.toList = cs) (name : String) :
      argument = name ↔ cs = name.toList := by
    rw [← h, String.toList_inj]
  unfold setArgument IsSource
  split
  next hchars =>
    rw [setSource_eq_ok_iff, hname hchars, hname hchars, hname hchars]
    simp
  next long hchars =>
    rw [hname hchars, hname hchars, hname hchars, hchars]
    split
    next hbrackets =>
      rw [hbrackets, setBrackets_eq_ok_iff]
      simp
    next hbrackets =>
      have hother : long ≠ ['b', 'r', 'a', 'c', 'k', 'e', 't', 's'] := hbrackets
      split
      · simp [hother]
      · split <;> simp [hother]
  next letters hone htwo hchars =>
    rw [hname hchars, hname hchars, hname hchars, hchars]
    cases letters with
    | nil => exact absurd rfl hone
    | cons c letters =>
      have hc : c ≠ '-' := fun heq => htwo letters (heq ▸ rfl)
      rw [setFlags_cons_eq_ok_iff]
      simp [hc, and_assoc]
  next hone htwo hthree =>
    have hhead : argument.toList.head? ≠ some '-' := fun hhead => by
      obtain ⟨letters, hchars⟩ := List.head?_eq_some_iff.1 hhead
      exact hthree letters hchars
    have hflag (name : String) (hname : name.toList.head? = some '-') : argument ≠ name :=
      fun heq => hhead (heq ▸ hname)
    rw [setSource_eq_ok_iff]
    simp [hhead, hflag "-b" rfl, hflag "--brackets" rfl]

/-- After two dashes there is room for one expression. -/
theorem Taken.foldlM_setSource_eq_ok_iff :
    arguments.foldlM setSource t = .ok u ↔
      arguments = [] ∧ u = t ∨
        ∃ source, arguments = [source] ∧ t.source? = none ∧ u = ⟨t.brackets, some source⟩ := by
  match arguments with
  | [] => simp [pure, Except.pure, eq_comm]
  | [source] => simp [← setSource_eq_ok_iff]
  | source :: other :: rest =>
    have hother (v : Taken) (hv : t.setSource source = .ok v) :
        v.setSource other = .error .rejected := by
      rw [(setSource_eq_ok_iff.1 hv).2]
      rfl
    cases hv : t.setSource source with
    | error r => simp [hv, bind, Except.bind]
    | ok v => simp [hv, hother v hv, bind, Except.bind]

/-- What can be taken on top of what was taken before: the flag and an expression, each once. -/
def Taken.Adds (t : Taken) (flag : Bool) (given : Option String) (u : Taken) : Prop :=
  (t.brackets = true → flag = false) ∧ (t.source?.isSome → given = none) ∧
    u = ⟨t.brackets || flag, t.source?.or given⟩

theorem Taken.exists_spells (h : t.setAll arguments = .ok u) :
    ∃ flag given, Spells arguments flag given ∧ t.Adds flag given u := by
  induction arguments generalizing t with
  | nil =>
    cases h
    exact ⟨false, none, .nothing, by simp [Adds]⟩
  | cons argument rest ih =>
    rw [setAll] at h
    split at h
    next hdashes =>
      subst hdashes
      obtain ⟨rfl, rfl⟩ | ⟨source, rfl, hnone, rfl⟩ := foldlM_setSource_eq_ok_iff.1 h
      · exact ⟨false, none, .dashes, by simp [Adds]⟩
      · exact ⟨false, some source, .dashesSource source, by simp [Adds, hnone]⟩
    next hdashes =>
      split at h
      next v hv =>
        obtain ⟨flag, given, hspells, hflag, hgiven, rfl⟩ := ih h
        obtain ⟨hargument, hfree, rfl⟩ | ⟨hargument, hfree, rfl⟩ := setArgument_eq_ok_iff.1 hv
        · -- with the flag taken, the later arguments cannot give it again
          obtain rfl : flag = false := hflag rfl
          exact ⟨true, given, .flag hargument hspells, by simpa [Adds, hfree] using hgiven⟩
        · obtain rfl : given = none := hgiven rfl
          exact ⟨flag, some argument, .source hargument hspells,
            by simpa [Adds, hfree] using hflag⟩
      next => cases h

theorem Taken.setAll_of_spells {flag : Bool} {given : Option String}
    (hspells : Spells arguments flag given) (hadds : t.Adds flag given u) :
    t.setAll arguments = .ok u := by
  induction hspells generalizing t with
  | nothing =>
    obtain ⟨-, -, rfl⟩ := hadds
    simp [setAll]
  | @flag argument rest given hargument _ ih =>
    obtain ⟨hfree, hgiven, rfl⟩ := hadds
    have hbrackets : t.brackets = false := by simpa using hfree
    have hdashes : argument ≠ "--" := by rintro rfl; simp at hargument
    rw [setAll, if_neg hdashes, setArgument_eq_ok_iff.2 (.inl ⟨hargument, hbrackets, rfl⟩)]
    exact ih ⟨fun _ => rfl, hgiven, by simp⟩
  | @source source rest flag hsource _ ih =>
    obtain ⟨hflag, hfree, rfl⟩ := hadds
    have hnone : t.source? = none := by simpa using hfree
    have hdashes : source ≠ "--" := by rintro rfl; simp [IsSource] at hsource
    rw [setAll, if_neg hdashes, setArgument_eq_ok_iff.2 (.inr ⟨hsource, hnone, rfl⟩)]
    exact ih ⟨hflag, fun _ => rfl, by simp [hnone]⟩
  | dashes =>
    obtain ⟨-, -, rfl⟩ := hadds
    simp [setAll, pure, Except.pure]
  | dashesSource source =>
    obtain ⟨-, hfree, rfl⟩ := hadds
    have hnone : t.source? = none := by simpa using hfree
    rw [setAll, if_pos rfl, foldlM_setSource_eq_ok_iff]
    exact .inr ⟨source, rfl, hnone, by simp [hnone]⟩

theorem Taken.setAll_eq_ok_iff :
    t.setAll arguments = .ok u ↔
      ∃ flag given, Spells arguments flag given ∧ t.Adds flag given u :=
  ⟨exists_spells, fun ⟨_, _, hspells, hadds⟩ => setAll_of_spells hspells hadds⟩

/-! ## §3 What it declines -/

def answering (style : Style) (source? : Option String) : Request :=
  source?.elim (.session style) (.expression style)

/-- If the arguments are not taken, then for the version, for help, or as not understood. -/
def Taken.Declines (taken : Except Request Taken) : Prop :=
  ∀ {r}, taken = .error r → ∀ style source?, r ≠ answering style source?

theorem Taken.declines_ok (t : Taken) : Declines (.ok t) := nofun

theorem Taken.declines_error {r : Request} (h : r ∈ [version, help, rejected]) :
    Declines (.error r) := by
  rintro _ ⟨⟩ style source?
  rcases source? with _ | source
  · rintro rfl
    simp [answering] at h
  · rintro rfl
    simp [answering] at h

theorem Taken.declines_setBrackets (t : Taken) : Declines t.setBrackets := by
  unfold setBrackets
  split
  · exact declines_error (by simp)
  · exact declines_ok _

theorem Taken.declines_setSource (t : Taken) (argument : String) :
    Declines (t.setSource argument) := by
  unfold setSource
  split
  · exact declines_error (by simp)
  · exact declines_ok _

theorem Taken.declines_setFlags (t : Taken) (letters : List Char) :
    Declines (t.setFlags letters) := by
  induction letters generalizing t with
  | nil => exact declines_ok t
  | cons c letters ih =>
    unfold setFlags
    split
    · split
      next u _ => exact ih u
      next r hr =>
        rw [← hr]
        exact t.declines_setBrackets
    · exact declines_error (by simp)
    · exact declines_error (by simp)
    · exact declines_error (by simp)

theorem Taken.declines_setArgument (t : Taken) (argument : String) :
    Declines (t.setArgument argument) := by
  unfold setArgument
  split
  · exact t.declines_setSource argument
  · split
    · exact t.declines_setBrackets
    split
    · exact declines_error (by simp)
    split
    · exact declines_error (by simp)
    · exact declines_error (by simp)
  · exact t.declines_setFlags _
  · exact t.declines_setSource argument

theorem Taken.declines_foldlM (t : Taken) (sources : List String) :
    Declines (sources.foldlM setSource t) := by
  induction sources generalizing t with
  | nil => exact declines_ok t
  | cons source rest ih =>
    rw [List.foldlM_cons]
    cases h : t.setSource source with
    | ok u => exact ih u
    | error r =>
      show Declines (.error r)
      rw [← h]
      exact t.declines_setSource source

theorem Taken.declines_setAll (t : Taken) (arguments : List String) :
    Declines (t.setAll arguments) := by
  induction arguments generalizing t with
  | nil => exact declines_ok t
  | cons argument rest ih =>
    unfold setAll
    split
    · exact t.declines_foldlM rest
    split
    next u _ => exact ih u
    next r hr =>
      rw [← hr]
      exact t.declines_setArgument argument

/-! ## §4 What it is asked for -/

/-- Arguments that ask for a style, and for an expression or a session. -/
def Asks (arguments : List String) (style : Style) (source? : Option String) : Prop :=
  ∃ flag given, Spells arguments flag given ∧
    style = (if flag = true ∨ given = some "brackets" then .bracketed else .plain) ∧
    source? = given.filter (· ≠ "brackets")

theorem answering_inj {style style' : Style} {source? source?' : Option String}
    (h : answering style source? = answering style' source?') :
    style = style' ∧ source? = source?' := by
  cases source? with
  | none =>
    cases source?' with
    | none => exact ⟨Request.session.inj h, rfl⟩
    | some source' => cases h
  | some source =>
    cases source?' with
    | none => cases h
    | some source' =>
      obtain ⟨hstyle, hsource⟩ := Request.expression.inj h
      exact ⟨hstyle, congrArg some hsource⟩

/-- What was taken asks for a session or for an expression. -/
theorem ofTaken_eq (flag : Bool) (given : Option String) :
    ofTaken ⟨flag, given⟩ =
      answering (if flag = true ∨ given = some "brackets" then .bracketed else .plain)
        (given.filter (· ≠ "brackets")) := by
  cases given with
  | none => simp [ofTaken, answering]
  | some source =>
    by_cases hword : source = "brackets"
    · simp [ofTaken, answering, hword, Option.filter_some]
    · simp [ofTaken, answering, hword, Option.filter_some]

/-- The program answers with a session or an expression what its arguments ask for, and only
that. -/
theorem ofArguments_eq_iff {style : Style} {source? : Option String} :
    ofArguments arguments = answering style source? ↔ Asks arguments style source? := by
  rw [ofArguments]
  constructor
  · intro h
    cases htaken : Taken.setAll ⟨false, none⟩ arguments with
    | error r =>
      rw [htaken] at h
      exact absurd h (Taken.declines_setAll _ arguments htaken style source?)
    | ok t =>
      obtain ⟨flag, given, hspells, -, -, rfl⟩ := Taken.setAll_eq_ok_iff.1 htaken
      rw [htaken] at h
      obtain ⟨rfl, rfl⟩ := answering_inj ((ofTaken_eq flag given).symm.trans (by simpa using h))
      exact ⟨flag, given, hspells, rfl, rfl⟩
  · rintro ⟨flag, given, hspells, rfl, rfl⟩
    have htaken : Taken.setAll ⟨false, none⟩ arguments = .ok ⟨flag, given⟩ :=
      Taken.setAll_eq_ok_iff.2 ⟨flag, given, hspells, by simp [Taken.Adds]⟩
    rw [htaken]
    exact ofTaken_eq flag given

end Request

end MatrixCalc
