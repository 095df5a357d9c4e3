import SoaPort.Mods.Options

namespace SoaPort.Mods

/-! What the options of a loaded mod are, by the whole of SOA_MOD_OPT. -/

/-- All the words of the text. -/
def whole_entries (env : Str) : List Str := (env.splitOnP is_space).filter (· ≠ [])

/-- The values the entries give an option of a mod. -/
def given (id name : Str) (es : List Str) : List Str :=
  es.filterMap fun e =>
    (opt_entry e).bind fun part => if part.1 = id ∧ part.2.1 = name then some part.2.2 else none

/-- An option's value by what it is given: its default by nothing, and one value's
canonical spelling. -/
def in_effect (o : ModOption) : List Str → Option Str
  | [] => some o.default
  | [v] => option_value o v
  | _ => none

/-- Options as their mod.ini leaves them. -/
structure Declared (opts : List ModOption) : Prop where
  names : (opts.map (·.name)).Nodup
  unset : ∀ o ∈ opts, o.set = false ∧ o.value = o.default

theorem read_option_fresh {name : Str} {type : OptionType} {tok : List Str} {o : ModOption}
    (ok : read_option name type tok = .ok o) :
    o.name = name ∧ o.set = false ∧ o.value = o.default := by
  rw [read_option] at ok
  cases read : read_domain name type tok with
  | error r =>
      rw [read] at ok
      cases ok
  | ok domain =>
      obtain ⟨lo, hi, choices, text⟩ := domain
      rw [read] at ok
      dsimp only at ok
      cases canon : option_value ⟨name, type, false, lo, hi, choices, [], []⟩ text with
      | none =>
          rw [canon] at ok
          cases ok
      | some canon =>
          rw [canon] at ok
          cases ok
          exact ⟨rfl, rfl, rfl⟩

theorem Declared.parse_option {opts declared : List ModOption} {val : Str} (before : Declared opts)
    (ok : parse_option opts val = .ok declared) : Declared declared := by
  rw [Mods.parse_option] at ok
  split at ok
  next name type tok words =>
    split_ifs at ok with _ _ known _
    split at ok
    · cases ok
    · split at ok
      · cases ok
      next o read =>
        cases ok
        obtain ⟨is, unset, value⟩ := read_option_fresh read
        constructor
        · rw [List.map_append, List.map_singleton, List.nodup_append]
          refine ⟨before.names, List.nodup_singleton _, ?_⟩
          intro a member b last
          rw [List.mem_singleton.mp last, is]
          rintro rfl
          exact known member
        · intro p member
          rcases List.mem_append.mp member with old | last
          · exact before.unset p old
          · rw [List.mem_singleton.mp last]
            exact ⟨unset, value⟩
  next => cases ok

theorem Declared.parse_options {opts declared : List ModOption} {vals : List Str}
    (before : Declared opts) (ok : parse_options opts vals = .ok declared) : Declared declared := by
  induction vals generalizing opts with
  | nil =>
      cases ok
      exact before
  | cons val vals ih =>
      rw [Mods.parse_options] at ok
      cases first : Mods.parse_option opts val with
      | error r =>
          rw [first] at ok
          cases ok
      | ok mid =>
          rw [first] at ok
          exact ih (before.parse_option first) ok

theorem declared_of_parse {opts : List ModOption} {vals : List Str}
    (ok : parse_options [] vals = .ok opts) : Declared opts := by
  have none_ : Declared [] := by
    refine ⟨List.nodup_nil, ?_⟩
    rintro o ⟨⟩
  exact none_.parse_options ok

/-- More words than the token array holds. -/
def Crowded (env : Str) : Prop := split (env.take (OPT_ENV_MAX - 1)) 256 = none

/-- A mod's options are as the text says: each has the value that the entries give
it, no value comes of an entry cut short, and none of the first 256 entries is
passed over for those that follow. -/
structure Honoured (id env : Str) (opts loaded : List ModOption) : Prop where
  value : ∀ o ∈ opts, ∃ o', loaded.find? (·.name = o.name) = some o' ∧
    in_effect o (given id o.name (whole_entries env)) = some o'.value
  uncut : ∀ o ∈ opts, ∀ v ∈ given id o.name (option_entries env),
    v ∈ given id o.name (whole_entries env)
  kept : Crowded env → ∀ o ∈ opts, given id o.name ((whole_entries env).take 256) = []

/-- The entries read give the option what all the text's give it, or they give it
nothing and those lost would leave it its default. -/
def ReadWhole (id env : Str) (o : ModOption) : Prop :=
  given id o.name (option_entries env) = given id o.name (whole_entries env) ∨
    given id o.name (option_entries env) = [] ∧
      in_effect o (given id o.name (whole_entries env)) = some o.default ∧
      (Crowded env → given id o.name ((whole_entries env).take 256) = [])

section Entries

variable {id env name canon : Str} {opts loaded : List ModOption} {o : ModOption} {e : Str}
  {es : List Str}

theorem given_cons (id name e : Str) (es : List Str) :
    given id name (e :: es) = given id name [e] ++ given id name es := by
  rw [given, given, given, ← List.filterMap_append, List.singleton_append]

theorem find_give_same (found : opts.find? (·.name = name) = some o) :
    (give name canon opts).find? (·.name = name) = some { o with value := canon, set := true } := by
  induction opts with
  | nil => cases found
  | cons p rest ih =>
      rw [give]
      by_cases same : p.name = name
      · rw [List.find?_cons_of_pos (by simpa using same)] at found
        obtain rfl := Option.some.inj found
        rw [if_pos same, List.find?_cons_of_pos (by simpa using same)]
      · rw [List.find?_cons_of_neg (by simpa using same)] at found
        rw [if_neg same, List.find?_cons_of_neg (by simpa using same)]
        exact ih found

theorem find_give_other {look : Str} (other : name ≠ look) :
    (give name canon opts).find? (·.name = look) = opts.find? (·.name = look) := by
  induction opts with
  | nil => rfl
  | cons p rest ih =>
      rw [give]
      by_cases same : p.name = name
      · have apart : p.name ≠ look := same ▸ other
        rw [if_pos same, List.find?_cons_of_neg (by simpa using apart),
          List.find?_cons_of_neg (by simpa using apart)]
      · rw [if_neg same, List.find?_cons, List.find?_cons, ih]

/-- What one entry does to an option: nothing, or it gives it its value. -/
theorem apply_entry_find (ok : apply_entry id opts e = .ok loaded)
    (found : opts.find? (·.name = name) = some o) :
    (given id name [e] = [] ∧ loaded.find? (·.name = name) = some o) ∨
      ∃ v canon, given id name [e] = [v] ∧ o.set = false ∧ option_value o v = some canon ∧
        loaded.find? (·.name = name) = some { o with value := canon, set := true } := by
  rw [apply_entry] at ok
  cases parted : opt_entry e with
  | none =>
      rw [parted] at ok
      cases ok
      exact .inl ⟨by simp [given, parted], found⟩
  | some part =>
      obtain ⟨eid, ename, v⟩ := part
      rw [parted] at ok
      dsimp only at ok
      by_cases mine : eid = id
      · rw [if_neg (not_not.mpr mine)] at ok
        cases there : opts.find? (·.name = ename) with
        | none =>
            rw [there] at ok
            cases ok
        | some p =>
            rw [there] at ok
            dsimp only at ok
            cases set_ : p.set with
            | true =>
                rw [set_, if_pos rfl] at ok
                cases ok
            | false =>
                rw [set_, if_neg Bool.false_ne_true] at ok
                cases canon : option_value p v with
                | none =>
                    rw [canon] at ok
                    cases ok
                | some text =>
                    rw [canon] at ok
                    cases ok
                    by_cases same : ename = name
                    · subst same
                      rw [there] at found
                      obtain rfl := Option.some.inj found
                      exact .inr ⟨v, text, by simp [given, parted, mine], set_, canon,
                        find_give_same there⟩
                    · refine .inl ⟨by simp [given, parted, same], ?_⟩
                      rw [find_give_other same]
                      exact found
      · rw [if_pos mine] at ok
        cases ok
        exact .inl ⟨by simp [given, parted, mine], found⟩

/-- An option accepted is given nothing or one value, which it then has. -/
theorem apply_entries_find (ok : apply_entries id es opts = .ok loaded)
    (found : opts.find? (·.name = name) = some o) :
    (given id name es = [] ∧ loaded.find? (·.name = name) = some o) ∨
      ∃ v canon, given id name es = [v] ∧ o.set = false ∧ option_value o v = some canon ∧
        loaded.find? (·.name = name) = some { o with value := canon, set := true } := by
  induction es generalizing opts o with
  | nil =>
      cases ok
      exact .inl ⟨rfl, found⟩
  | cons e es ih =>
      rw [apply_entries] at ok
      cases first : apply_entry id opts e with
      | error r =>
          rw [first] at ok
          cases ok
      | ok mid =>
          rw [first] at ok
          rw [given_cons]
          rcases apply_entry_find first found with ⟨none_, kept⟩ | ⟨v, canon, one, free, is, now⟩
          · rw [none_, List.nil_append]
            exact ih ok kept
          · rcases ih ok now with ⟨none_, kept⟩ | ⟨-, -, -, taken, -, -⟩
            · refine .inr ⟨v, canon, ?_, free, is, kept⟩
              rw [one, none_, List.append_nil]
            · cases taken

theorem Declared.find (declared : Declared opts) (member : o ∈ opts) :
    opts.find? (·.name = o.name) = some o := by
  have names := declared.names
  clear declared
  induction opts with
  | nil => cases member
  | cons p rest ih =>
      rw [List.map_cons, List.nodup_cons] at names
      rcases List.mem_cons.mp member with rfl | later
      · exact List.find?_cons_of_pos (by simp)
      · have other : p.name ≠ o.name := by
          intro same
          apply names.1
          rw [same]
          exact List.mem_map_of_mem later
        rw [List.find?_cons_of_neg (by simpa using other)]
        exact ih later names.2

/-- A loaded mod's options are as the entries read give them. -/
theorem options_read (declared : Declared opts) (ok : apply_options id env opts = .ok loaded)
    (member : o ∈ opts) :
    ∃ o', loaded.find? (·.name = o.name) = some o' ∧
      in_effect o (given id o.name (option_entries env)) = some o'.value := by
  rcases apply_entries_find ok (declared.find member) with
    ⟨none_, kept⟩ | ⟨v, canon, one, -, is, now⟩
  · refine ⟨o, kept, ?_⟩
    rw [none_, (declared.unset o member).2]
    rfl
  · refine ⟨_, now, ?_⟩
    rw [one]
    exact is

theorem options_given (declared : Declared opts) (ok : apply_options id env opts = .ok loaded)
    (member : o ∈ opts) :
    given id o.name (option_entries env) = [] ∨
      ∃ v, given id o.name (option_entries env) = [v] := by
  rcases apply_entries_find ok (declared.find member) with ⟨none_, -⟩ | ⟨v, -, one, -⟩
  · exact .inl none_
  · exact .inr ⟨v, one⟩

theorem option_entries_crowded (crowded : Crowded env) : option_entries env = [] := by
  rw [option_entries, crowded]

theorem Honoured.read_whole (honoured : Honoured id env opts loaded) (declared : Declared opts)
    (ok : apply_options id env opts = .ok loaded) (member : o ∈ opts) : ReadWhole id env o := by
  obtain ⟨o', there, whole⟩ := honoured.value o member
  obtain ⟨p, same, read⟩ := options_read declared ok member
  rw [there] at same
  obtain rfl := Option.some.inj same
  rcases options_given declared ok member with none_ | ⟨v, one⟩
  · rw [none_] at read
    exact .inr ⟨none_, whole.trans read.symm, fun crowded => honoured.kept crowded o member⟩
  · have found := honoured.uncut o member v (one ▸ List.mem_singleton.mpr rfl)
    left
    rw [one]
    -- of two values or more none would be in effect
    cases values : given id o.name (whole_entries env) with
    | nil =>
        rw [values] at found
        cases found
    | cons v' more =>
        rw [values] at found whole
        cases more with
        | nil => rw [List.mem_singleton.mp found]
        | cons _ _ => cases whole

theorem honoured_of_read_whole (declared : Declared opts)
    (ok : apply_options id env opts = .ok loaded) (whole : ∀ o ∈ opts, ReadWhole id env o) :
    Honoured id env opts loaded := by
  refine ⟨?_, ?_, ?_⟩
  · intro o member
    obtain ⟨o', there, read⟩ := options_read declared ok member
    refine ⟨o', there, ?_⟩
    rcases whole o member with same | ⟨none_, default_, -⟩
    · rw [← same]
      exact read
    · rw [none_] at read
      exact default_.trans read
  · intro o member v found
    rcases whole o member with same | ⟨none_, -⟩
    · exact same ▸ found
    · rw [none_] at found
      cases found
  · intro crowded o member
    rcases whole o member with same | ⟨-, -, kept⟩
    · rw [option_entries_crowded crowded] at same
      have sub : (given id o.name ((whole_entries env).take 256)).Sublist
          (given id o.name (whole_entries env)) := (List.take_sublist 256 _).filterMap _
      rw [← same] at sub
      exact List.sublist_nil.mp sub
    · exact kept crowded

/-- A text the buffers hold is read whole. -/
theorem option_entries_whole (short : env.length < OPT_ENV_MAX) (plain : '#' ∉ env)
    (few : (whole_entries env).length ≤ 256) : option_entries env = whole_entries env := by
  have taken : env.take (OPT_ENV_MAX - 1) = env := by
    apply List.take_of_length_le
    have max : OPT_ENV_MAX = 4096 := rfl
    omega
  have kept : env.takeWhile (· ≠ '#') = env := by
    rw [List.takeWhile_eq_self_iff]
    intro c member
    rw [decide_eq_true_eq]
    rintro rfl
    exact plain member
  have words : split env 256 = some (whole_entries env) := by
    rw [split, kept]
    exact if_pos few
  rw [option_entries, taken, words]

/-- Just when what is read of the text is, for each option, what the text says of
it. So it is with every text the buffers hold. -/
theorem options_honoured_iff {vals : List Str} (parsed : parse_options [] vals = .ok opts)
    (ok : apply_options id env opts = .ok loaded) :
    (Honoured id env opts loaded ↔ ∀ o ∈ opts, ReadWhole id env o) ∧
      (env.length < OPT_ENV_MAX → '#' ∉ env → (whole_entries env).length ≤ 256 →
        Honoured id env opts loaded) := by
  have declared := declared_of_parse parsed
  refine ⟨⟨fun honoured o => honoured.read_whole declared ok,
    honoured_of_read_whole declared ok⟩, ?_⟩
  intro short plain few
  apply honoured_of_read_whole declared ok
  intro o _
  left
  rw [option_entries_whole short plain few]

end Entries

/-- `option = n bool 0` -/
def bool_line : Str := ['n', ' ', 'b', 'o', 'o', 'l', ' ', '0']

def bool_option : ModOption := ⟨['n'], .bool, false, 0, 0, [], ['0'], ['0']⟩

theorem bool_parsed : parse_options [] [bool_line] = .ok [bool_option] := rfl

def one_entry : Str := ['m', '.', 'n', '=', '1']

theorem options_honoured_one :
    Honoured ['m'] one_entry [bool_option] [{ bool_option with value := ['1'], set := true }] :=
  (options_honoured_iff bool_parsed rfl).2 (by decide) (by decide) (by decide)

/-- The same entry, and 256 words after it. -/
def crowded_text : Str := one_entry ++ (List.replicate 256 [' ', 'x']).flatten

theorem crowded_entry_ignored :
    ∃ loaded, parse_options [] [bool_line] = .ok [bool_option] ∧
      apply_options ['m'] crowded_text [bool_option] = .ok loaded ∧
      ¬ Honoured ['m'] crowded_text [bool_option] loaded := by
  have many : Crowded crowded_text := by
    rw [Crowded]
    decide +kernel
  have one : given ['m'] ['n'] (whole_entries crowded_text) = [['1']] := by decide +kernel
  refine ⟨[bool_option], bool_parsed, ?_, ?_⟩
  · rw [apply_options, option_entries_crowded many]
    rfl
  · intro honoured
    obtain ⟨o', there, whole⟩ := honoured.value bool_option (List.mem_singleton.mpr rfl)
    obtain rfl := Option.some.inj there
    have name : bool_option.name = ['n'] := rfl
    rw [name, one] at whole
    exact absurd whole (by decide)

end SoaPort.Mods
