import JobProvenance.Lib.Getopt
import JobProvenance.Common.Attr

/-!
# The options of the index server

The server takes its configuration from its command line and from a file the
command line names. Each option sets a field of the configuration of its own,
three of which make the server delete its database, load its feeds anew or feed
from a file; but the number of slaves, unless it is positive, is followed by what
belongs to the next case, the deletion of the database.

* `OptionsExact`: every option changes its own field only, and the three fields are
  not set without their options;
* `SlavesAfterDelete`: a number of slaves that is not positive comes only behind
  the option that deletes the database;
* `optionsExact_iff`: the command lines where the options are exact are these.
-/

namespace JobProvenance

/-! ## The options -/

/-- The options of the server. -/
inductive ServerOption
  | debug
  | queryType
  | cert
  | key
  | noauth
  | mysql
  | port
  | pidfile
  | logfile
  | config
  | slaves
  | deleteDb
  | feeding
  | forceFeed
  deriving DecidableEq

def getOptString : Bytes := ascii "dq:c:k:C:V:nm:p:i:o:x:s:Df:F"

def opts : List LongOption :=
  [⟨ascii "debug", false, ch 'd'⟩,
    ⟨ascii "query-type", true, ch 'q'⟩,
    ⟨ascii "cert", true, ch 'c'⟩,
    ⟨ascii "key", true, ch 'k'⟩,
    ⟨ascii "noauth", false, ch 'n'⟩,
    ⟨ascii "mysql", true, ch 'm'⟩,
    ⟨ascii "port", true, ch 'p'⟩,
    ⟨ascii "pidfile", true, ch 'i'⟩,
    ⟨ascii "logfile", true, ch 'o'⟩,
    ⟨ascii "config", true, ch 'x'⟩,
    ⟨ascii "slaves", true, ch 's'⟩,
    ⟨ascii "delete-db", false, ch 'D'⟩,
    ⟨ascii "feeding", true, ch 'f'⟩,
    ⟨ascii "force-feed", false, ch 'F'⟩]

/-- The options the server looks for, where the environment may ask for the
    standard's order of words. -/
def indexGetopt (posixlyCorrect : Bool) : Getopt := ⟨getOptString, opts, posixlyCorrect⟩

/-- The cases of the server, by their letters; two letters it looks for have none. -/
def optionOf (c : UInt8) : Option ServerOption :=
  if c = ch 'd' then some .debug
  else if c = ch 'q' then some .queryType
  else if c = ch 'c' then some .cert
  else if c = ch 'k' then some .key
  else if c = ch 'n' then some .noauth
  else if c = ch 'm' then some .mysql
  else if c = ch 'p' then some .port
  else if c = ch 'i' then some .pidfile
  else if c = ch 'o' then some .logfile
  else if c = ch 'x' then some .config
  else if c = ch 's' then some .slaves
  else if c = ch 'D' then some .deleteDb
  else if c = ch 'f' then some .feeding
  else if c = ch 'F' then some .forceFeed
  else none

/-- The option of the server that has been found, if it is one. -/
def serverOption (r : Option Opt) : Option ServerOption := r.bind fun o => optionOf o.val

/-! ## The configuration -/

variable {F : Type}

/-- The configuration: what the file says, and what the options do. -/
structure ServerConf (F : Type) where
  file : Option F
  debug : Bool
  noAuth : Bool
  cs : Option Bytes
  port : Option Bytes
  pidfile : Option Bytes
  logfile : Option Bytes
  serverCert : Option Bytes
  serverKey : Option Bytes
  slaves : ℤ
  deleteDb : Bool
  feeding : Option Bytes
  forceFeed : Bool

/-- A configuration of zeros. -/
def ServerConf.zero : ServerConf F where
  file := none
  debug := false
  noAuth := false
  cs := none
  port := none
  pidfile := none
  logfile := none
  serverCert := none
  serverKey := none
  slaves := 0
  deleteDb := false
  feeding := none
  forceFeed := false

/-- What the options are read into: the configuration, and two variables. -/
structure Parsed (F : Type) where
  conf : ServerConf F
  qt : Option Bytes
  confFile : Option Bytes

/-- Before the first option. -/
def Parsed.start : Parsed F := ⟨.zero, none, none⟩

/-- What an option does. -/
def Parsed.set (s : Parsed F) (optarg : Option Bytes) : ServerOption → Parsed F
  | .debug => { s with conf := { s.conf with debug := true } }
  | .queryType => { s with qt := optarg }
  | .cert => { s with conf := { s.conf with serverCert := optarg } }
  | .key => { s with conf := { s.conf with serverKey := optarg } }
  | .noauth => { s with conf := { s.conf with noAuth := true } }
  | .mysql => { s with conf := { s.conf with cs := optarg } }
  | .port => { s with conf := { s.conf with port := optarg } }
  | .pidfile => { s with conf := { s.conf with pidfile := optarg } }
  | .logfile => { s with conf := { s.conf with logfile := optarg } }
  | .config => { s with confFile := optarg }
  | .slaves =>
    let conf := { s.conf with slaves := atoi (optarg.getD []) }
    if 0 < conf.slaves then { s with conf := conf }
    -- there is no break: the next case follows
    else { s with conf := { conf with deleteDb := true } }
  | .deleteDb => { s with conf := { s.conf with deleteDb := true } }
  | .feeding => { s with conf := { s.conf with feeding := optarg } }
  | .forceFeed => { s with conf := { s.conf with forceFeed := true } }

/-- The switch over what has been found; `none` when the server prints its usage
    and exits. -/
def setOption (s : Parsed F) (r : Option Opt) : Option (Parsed F) :=
  (serverOption r).map (s.set (r.bind Opt.optarg))

/-- Reads the configuration of a command line, `readConf` reading the file: `none`
    when the server exits, and no configuration when it fails. -/
def getConf (readConf : Bytes → Option F) (posixlyCorrect : Bool) (argv : List Bytes) :
    Option (Option (ServerConf F)) := do
  let s : Parsed F ← ((indexGetopt posixlyCorrect).getoptLong argv).foldlM setOption .start
  let some confFile := s.confFile | return none
  let some file := readConf confFile | return none
  return some { s.conf with file := some file }

/-- What the server does on its start that depends on the three fields. -/
inductive StartAction
  | dropDatabase
  | initDatabase
  | initDatabaseFeeds
  | feeding (file : Bytes)
  deriving DecidableEq

/-- What a server does on its start, as long as nothing fails. -/
def startUp (conf : ServerConf F) : List StartAction :=
  (if conf.deleteDb then [.dropDatabase] else []) ++ [.initDatabase] ++
    (if conf.deleteDb || conf.forceFeed then [.initDatabaseFeeds] else []) ++
    conf.feeding.toList.map .feeding

section StartUp

variable {conf : ServerConf F}

theorem dropDatabase_mem_startUp : .dropDatabase ∈ startUp conf ↔ conf.deleteDb = true := by
  simp [startUp]

theorem initDatabaseFeeds_mem_startUp :
    .initDatabaseFeeds ∈ startUp conf ↔ conf.deleteDb = true ∨ conf.forceFeed = true := by
  simp [startUp]

theorem feeding_mem_startUp {file : Bytes} :
    .feeding file ∈ startUp conf ↔ conf.feeding = some file := by
  simp [startUp]

end StartUp

/-! ## Options that do what they say -/

/-- The configuration without the field of an option; two of them have none. -/
def ServerConf.erase (conf : ServerConf F) : ServerOption → ServerConf F
  | .debug => { conf with debug := false }
  | .queryType => conf
  | .cert => { conf with serverCert := none }
  | .key => { conf with serverKey := none }
  | .noauth => { conf with noAuth := false }
  | .mysql => { conf with cs := none }
  | .port => { conf with port := none }
  | .pidfile => { conf with pidfile := none }
  | .logfile => { conf with logfile := none }
  | .config => conf
  | .slaves => { conf with slaves := 0 }
  | .deleteDb => { conf with deleteDb := false }
  | .feeding => { conf with feeding := none }
  | .forceFeed => { conf with forceFeed := false }

/-- In every state of the loop, the next option changes the field it names only. -/
def EachItsOwn (F : Type) (rs : List (Option Opt)) : Prop :=
  ∀ before r after, rs = before ++ r :: after → ∀ s s' : Parsed F,
    before.foldlM setOption .start = some s → setOption s r = some s' →
    ∀ o, serverOption r = some o → s'.conf.erase o = s.conf.erase o

/-- The options found are exact: each changes the field it names only, and none of
    the three fields is set in any state of the loop unless its option has been
    found. -/
structure OptionsExact (F : Type) (rs : List (Option Opt)) : Prop where
  frame : EachItsOwn F rs
  deleteDb : ∀ before, before <+: rs → ∀ s : Parsed F,
    before.foldlM setOption .start = some s → s.conf.deleteDb = true →
    some .deleteDb ∈ before.map serverOption
  feeding : ∀ before, before <+: rs → ∀ s : Parsed F,
    before.foldlM setOption .start = some s → s.conf.feeding ≠ none →
    some .feeding ∈ before.map serverOption
  forceFeed : ∀ before, before <+: rs → ∀ s : Parsed F,
    before.foldlM setOption .start = some s → s.conf.forceFeed = true →
    some .forceFeed ∈ before.map serverOption

/-- A number of slaves that is not positive comes only behind the option that
    deletes the database, among the options the server gets to. -/
def SlavesAfterDelete (rs : List (Option Opt)) : Prop :=
  ∀ before r after, rs = before ++ r :: after → none ∉ before.map serverOption →
    serverOption r = some .slaves → atoi ((r.bind Opt.optarg).getD []) ≤ 0 →
    some .deleteDb ∈ before.map serverOption

/-! ## A step of the loop -/

section Step

variable {s s' : Parsed F} {r : Option Opt} {o : ServerOption} {rs before : List (Option Opt)}

theorem setOption_eq_some :
    setOption s r = some s' ↔ ∃ o, serverOption r = some o ∧ s' = s.set (r.bind Opt.optarg) o := by
  rw [setOption, Option.map_eq_some_iff]
  simp only [eq_comm]

/-- The options are gone through when, and only when, the server knows them all. -/
theorem exists_foldlM_setOption (before : List (Option Opt)) (s : Parsed F) :
    (∃ t, before.foldlM setOption s = some t) ↔ none ∉ before.map serverOption := by
  induction before generalizing s with
  | nil => exact ⟨fun _ => List.not_mem_nil, fun _ => ⟨s, rfl⟩⟩
  | cons r before ih =>
    rw [List.foldlM_cons, List.map_cons, List.mem_cons, not_or, setOption]
    cases hr : serverOption r with
    | none => simp
    | some o => simpa using ih _

/-- An option changes its own field only, unless it is a number of slaves that is
    not positive while the database is not to be deleted yet. -/
theorem erase_set (s : Parsed F) (optarg : Option Bytes)
    (h : o = .slaves → atoi (optarg.getD []) ≤ 0 → s.conf.deleteDb = true) :
    (s.set optarg o).conf.erase o = s.conf.erase o := by
  cases o with
  | slaves =>
    rw [Parsed.set]
    dsimp only
    split_ifs with hpos
    · rfl
    · rw [ServerConf.erase, ServerConf.erase, h rfl (not_lt.1 hpos)]
  | _ => rfl

/-- A number of slaves that is not positive makes the server delete its database. -/
theorem deleteDb_set_slaves (s : Parsed F) {optarg : Option Bytes}
    (h : atoi (optarg.getD []) ≤ 0) : (s.set optarg .slaves).conf.deleteDb = true := by
  rw [Parsed.set]
  dsimp only
  rw [if_neg (not_lt.2 h)]

/-- The database stays to be deleted, whatever options follow. -/
theorem deleteDb_set {optarg : Option Bytes} (h : o = .deleteDb ∨ s.conf.deleteDb = true) :
    (s.set optarg o).conf.deleteDb = true := by
  rcases h with rfl | h
  · rfl
  · cases o with
    | slaves =>
      rw [Parsed.set]
      dsimp only
      split_ifs
      · exact h
      · rfl
    | _ => first | exact h | rfl

theorem deleteDb_of_foldlM (h : before.foldlM setOption s = some s')
    (hd : s.conf.deleteDb = true ∨ some .deleteDb ∈ before.map serverOption) :
    s'.conf.deleteDb = true := by
  induction before generalizing s with
  | nil =>
    obtain rfl := Option.some.inj h
    exact hd.resolve_right List.not_mem_nil
  | cons r before ih =>
    rw [List.foldlM_cons] at h
    obtain ⟨t, ht, h⟩ := Option.bind_eq_some_iff.1 h
    obtain ⟨o, ho, rfl⟩ := setOption_eq_some.1 ht
    rw [List.map_cons, List.mem_cons, ho, Option.some_inj] at hd
    refine ih h ?_
    rcases hd with hd | hd | hd
    · exact .inl (deleteDb_set (.inr hd))
    · exact .inl (deleteDb_set (.inl hd.symm))
    · exact .inr hd

end Step

/-! ## The whole command line -/

/-- A field that only one option may change is changed only when this has been
    found. -/
theorem mem_of_changed {β : Type} {p : ServerConf F → β} {o : ServerOption}
    (hp : ∀ o', o' ≠ o → ∀ conf, p (conf.erase o') = p conf) {rs before : List (Option Opt)}
    (hframe : EachItsOwn F rs) (hbefore : before <+: rs) {s : Parsed F}
    (h : before.foldlM setOption .start = some s) (hne : p s.conf ≠ p .zero) :
    some o ∈ before.map serverOption := by
  induction before using List.reverseRecOn generalizing s with
  | nil =>
    obtain rfl := Option.some.inj h
    exact absurd rfl hne
  | append_singleton before r ih =>
    obtain ⟨after, rfl⟩ := hbefore
    rw [List.foldlM_append] at h
    obtain ⟨t, ht, h⟩ := Option.bind_eq_some_iff.1 h
    obtain ⟨u, hu, h⟩ := Option.bind_eq_some_iff.1 h
    obtain rfl := Option.some.inj h
    obtain ⟨o', ho', -⟩ := setOption_eq_some.1 hu
    rw [List.map_append, List.mem_append, List.map_singleton, List.mem_singleton, ho']
    by_cases heq : o' = o
    · exact .inr (congrArg some heq.symm)
    · have hsame := hframe before r after (List.append_assoc ..) t u ht hu o' ho'
      refine .inl (ih ⟨[r] ++ after, (List.append_assoc ..).symm⟩ ht fun hzero => hne ?_)
      rw [← hzero, ← hp o' heq, hsame, hp o' heq]

/-- Options that are exact in each step are exact. -/
theorem optionsExact_of_frame {rs : List (Option Opt)} (hframe : EachItsOwn F rs) :
    OptionsExact F rs where
  frame := hframe
  deleteDb before hbefore s h hd := by
    refine mem_of_changed (p := ServerConf.deleteDb) (fun o ho conf => ?_) hframe hbefore h ?_
    · cases o <;> first | rfl | exact absurd rfl ho
    · rw [hd]
      exact Bool.noConfusion
  feeding before hbefore s h hf := by
    refine mem_of_changed (p := ServerConf.feeding) (fun o ho conf => ?_) hframe hbefore h hf
    cases o <;> first | rfl | exact absurd rfl ho
  forceFeed before hbefore s h hf := by
    refine mem_of_changed (p := ServerConf.forceFeed) (fun o ho conf => ?_) hframe hbefore h ?_
    · cases o <;> first | rfl | exact absurd rfl ho
    · rw [hf]
      exact Bool.noConfusion

/-- Where the options are exact, a number of slaves that is not positive comes
    behind the option that deletes the database. -/
theorem slavesAfterDelete_of_optionsExact {rs : List (Option Opt)} (h : OptionsExact F rs) :
    SlavesAfterDelete rs := by
  intro before r after hrs hknown hr harg
  obtain ⟨s, hs⟩ := (exists_foldlM_setOption before (Parsed.start (F := F))).2 hknown
  have hset : setOption s r = some (s.set (r.bind Opt.optarg) .slaves) :=
    setOption_eq_some.2 ⟨_, hr, rfl⟩
  have hsame := h.frame before r after hrs _ _ hs hset _ hr
  refine h.deleteDb before ⟨r :: after, hrs.symm⟩ s hs ?_
  calc s.conf.deleteDb = (s.conf.erase .slaves).deleteDb := rfl
    _ = ((s.set (r.bind Opt.optarg) .slaves).conf.erase .slaves).deleteDb := by rw [hsame]
    _ = (s.set (r.bind Opt.optarg) .slaves).conf.deleteDb := rfl
    _ = true := deleteDb_set_slaves s harg

/-- The options of a command line are exact when each number of slaves that is not
    positive comes behind the option that deletes the database, and only then. -/
theorem optionsExact_iff (posixlyCorrect : Bool) (argv : List Bytes) :
    OptionsExact F ((indexGetopt posixlyCorrect).getoptLong argv) ↔
      SlavesAfterDelete ((indexGetopt posixlyCorrect).getoptLong argv) := by
  refine ⟨slavesAfterDelete_of_optionsExact, fun h => optionsExact_of_frame ?_⟩
  intro before r after hrs s s' hs hset o ho
  obtain ⟨o', ho', rfl⟩ := setOption_eq_some.1 hset
  obtain rfl := Option.some.inj (ho'.symm.trans ho)
  refine erase_set s _ fun hslaves harg => ?_
  have hknown := (exists_foldlM_setOption before .start).1 ⟨s, hs⟩
  exact deleteDb_of_foldlM hs (.inr (h before r after hrs hknown (hslaves ▸ ho) harg))

/-- The command line of a server without slaves. -/
def noSlavesArgv : List Bytes :=
  ascii "glite-jp-indexd" ::
    [(⟨ch 'x', some (ascii "conf.xml")⟩ : Opt), ⟨ch 's', some (ascii "0")⟩].flatMap Getopt.render

/-- The options of such a server are not exact: it deletes its database. -/
theorem not_optionsExact_noSlaves :
    ¬OptionsExact Unit ((indexGetopt false).getoptLong noSlavesArgv) := by
  have htakes : ∀ o ∈ [(⟨ch 'x', some (ascii "conf.xml")⟩ : Opt), ⟨ch 's', some (ascii "0")⟩],
      (indexGetopt false).Takes o :=
    List.forall_mem_cons.2 ⟨⟨by decide, by decide⟩,
      List.forall_mem_singleton.2 ⟨by decide, by decide⟩⟩
  have hfound := Getopt.options_render htakes []
  rw [List.append_nil] at hfound
  intro h
  have hdelete := slavesAfterDelete_of_optionsExact h [some ⟨ch 'x', some (ascii "conf.xml")⟩]
    (some ⟨ch 's', some (ascii "0")⟩) [] hfound (by decide) (by decide) (by decide)
  exact absurd hdelete (by decide)

/-- A server whose options are exact drops its database, loads its feeds anew or
    feeds from a file only when it is told to. -/
theorem mem_startUp {readConf : Bytes → Option F} {posixlyCorrect : Bool} {argv : List Bytes}
    {conf : ServerConf F} (h : OptionsExact F ((indexGetopt posixlyCorrect).getoptLong argv))
    (hconf : getConf readConf posixlyCorrect argv = some (some conf)) :
    let found := ((indexGetopt posixlyCorrect).getoptLong argv).map serverOption
    (.dropDatabase ∈ startUp conf → some .deleteDb ∈ found) ∧
      (.initDatabaseFeeds ∈ startUp conf →
        some .deleteDb ∈ found ∨ some .forceFeed ∈ found) ∧
      ∀ file, .feeding file ∈ startUp conf → some .feeding ∈ found := by
  obtain ⟨s, hs, hconf⟩ := Option.bind_eq_some_iff.1 hconf
  have hdelete := h.deleteDb _ List.prefix_rfl s hs
  have hfeeding := h.feeding _ List.prefix_rfl s hs
  have hforce := h.forceFeed _ List.prefix_rfl s hs
  have hfields : conf.deleteDb = s.conf.deleteDb ∧ conf.feeding = s.conf.feeding ∧
      conf.forceFeed = s.conf.forceFeed := by
    cases hfile : s.confFile with
    | none => rw [hfile] at hconf; cases hconf
    | some file =>
      rw [hfile] at hconf
      dsimp only at hconf
      cases hread : readConf file with
      | none => rw [hread] at hconf; cases hconf
      | some f =>
        rw [hread] at hconf
        obtain rfl := Option.some.inj (Option.some.inj hconf)
        exact ⟨rfl, rfl, rfl⟩
  obtain ⟨hd, hf, hff⟩ := hfields
  rw [← hd] at hdelete
  rw [← hf] at hfeeding
  rw [← hff] at hforce
  refine ⟨fun hmem => hdelete (dropDatabase_mem_startUp.1 hmem), fun hmem =>
    (initDatabaseFeeds_mem_startUp.1 hmem).imp hdelete hforce, fun file hmem => hfeeding ?_⟩
  rw [feeding_mem_startUp.1 hmem]
  exact Option.some_ne_none file

end JobProvenance
