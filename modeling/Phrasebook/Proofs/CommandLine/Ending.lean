import Phrasebook.Proofs.CommandLine.Report
import Phrasebook.Proofs.Document.Faults
import Phrasebook.Proofs.Document.Unreadable

/-!
# How a command line ends

A command line that asks for a report gets it, or it fails with the one fault that stopped it, or a fault escapes that
is not got over. On a machine without limits, and with parsers that refuse documents as they are documented to, only a
file that is not the YAML document that its suffix tells has such a fault.

* `CommandLine.Request.IsAbout` is the file that a request is about, and `CommandLine.Request.StoppedBy` lists what
  stops one; `CommandLine.Request.isAbout_or_stoppedBy`: the list is complete.
* `CommandLine.Request.EscapedBy` lists what escapes.
* `CommandLine.run_ends`: how every command line ends, and `CommandLine.broken_yaml_escapes` one that does not end as
  the others do.
-/

namespace Phrasebook

/-- The source that counts for a locale is the last one that is for it. -/
theorem get?_byLocale (sources : List Source) (locale : String) :
    (byLocale sources).get? locale = (sources.filter (·.locale = locale)).getLast? := by
  induction sources using List.reverseRecOn with
  | nil => rfl
  | append_singleton sources last ih =>
    rw [byLocale_concat, Ordered.get?_put, ih, List.filter_append]
    by_cases hlast : last.locale = locale
    · simp [hlast]
    · simp [hlast]

/-- What stands for all locales is what the given locale has, or the first one. -/
theorem representative_eq_ok {α : Type} {items : Ordered String α} {asked : Option String} {locale : String} {a : α}
    (hlocale : asked.or items.keys.head? = some locale) (ha : items.get? locale = some a) :
    representative items asked = .ok a := by
  cases asked with
  | some given =>
    obtain rfl : given = locale := Option.some.inj hlocale
    simp only [representative, ha]
  | none =>
    cases items with
    | nil => cases ha
    | cons item items =>
      obtain rfl : item.1 = locale := Option.some.inj hlocale
      rw [Ordered.get?, if_pos rfl] at ha
      exact congrArg _ (Option.some.inj ha)

namespace CommandLine

/-! ## Endings -/

/-- The fault that a notice tells, if it is not about a finding. -/
def Notice.failure? : Notice → Option Fault
  | .failure fault => some fault
  | .finding _ => none

theorem filterMap_failure?_findings (findings : List Finding) :
    (findings.map Notice.finding).filterMap Notice.failure? = [] := by
  rw [List.filterMap_map, List.filterMap_eq_nil_iff]
  exact fun _ _ => rfl

namespace Ending

/-- The faults that a run logs. -/
def failures (e : Ending) : List Fault := e.notices.filterMap Notice.failure?

/-- A run ends with a document: it prints that and nothing else, and logs no fault. -/
structure Reports (e : Ending) (document : String) : Prop where
  exit : e.exit = .ok 0
  output : e.output = document
  failures : e.failures = []

/-- A run ends with a fault: it prints nothing and logs that fault and no other one. -/
structure Fails (e : Ending) (fault : Fault) : Prop where
  exit : e.exit = .ok 1
  output : e.output = ""
  failures : e.failures = [fault]

/-- A run does not end: it prints nothing and logs no fault, and has no exit code. -/
structure Escapes (e : Ending) (fault : Fault) : Prop where
  exit : e.exit = .error fault
  output : e.output = ""
  failures : e.failures = []

end Ending

/-- A fault about a value is got over. -/
theorem not_escapes_of_isOfValue {fault : Fault} (h : fault.isOfValue = true) : escapes fault = false := by
  cases fault with
  | malformed format => cases format <;> first | rfl | cases h
  | _ => first | rfl | cases h

/-- A machine without limits: no tree exhausts it, and it can print every text. -/
structure Machine.Unlimited (m : Machine) : Prop where
  exhausted : ∀ options tree, m.exhausted options tree = false
  canPrint : ∀ text, m.canPrint text = true

theorem Machine.analyse_of_exhausted {m : Machine} {options : Options} {tree : Table}
    (h : m.exhausted options tree = true) : m.analyse options tree = Audit.ofExcept (.error tooDeep) := if_pos h

theorem Machine.analyse_of_not_exhausted {m : Machine} {options : Options} {tree : Table}
    (h : m.exhausted options tree = false) : m.analyse options tree = Catalog.ofTable options tree :=
  if_neg (by simp [h])

namespace Request

variable {r : Request} {folder : Folder} {machine : Machine} {fault : Fault}

/-- A request with a catalog ends with the report on it, if that can be printed. -/
theorem run_of_ok {c : Catalog} (h : (r.catalog folder machine).outcome = .ok c)
    (hprint : machine.canPrint (r.style.render c) = true) : (r.run folder machine).Reports (r.style.render c) := by
  simp only [run, h, hprint, if_true]
  exact ⟨rfl, rfl, filterMap_failure?_findings _⟩

theorem run_of_unprintable {c : Catalog} (h : (r.catalog folder machine).outcome = .ok c)
    (hprint : machine.canPrint (r.style.render c) = false) : (r.run folder machine).Escapes Machine.unprintable := by
  simp only [run, h, hprint, Bool.false_eq_true, if_false]
  exact ⟨rfl, rfl, filterMap_failure?_findings _⟩

/-- A request without a catalog ends with the fault, unless that is not got over. -/
theorem run_of_error (h : (r.catalog folder machine).outcome = .error fault) (hover : escapes fault = false) :
    (r.run folder machine).Fails fault := by
  simp only [run, h, hover, Bool.false_eq_true, if_false]
  refine ⟨rfl, rfl, ?_⟩
  rw [Ending.failures, List.filterMap_append, filterMap_failure?_findings]
  rfl

theorem run_of_escaping (h : (r.catalog folder machine).outcome = .error fault) (hover : escapes fault = true) :
    (r.run folder machine).Escapes fault := by
  simp only [run, h, hover, if_true]
  exact ⟨rfl, rfl, filterMap_failure?_findings _⟩

/-! ## What a request is about -/

/-- The locale that a request is about: the one it names, or else that of its first file. -/
def target? (r : Request) : Option String := r.locale.or (r.sources.head?.map Source.locale)

/-- The file that a request is about is the last one for its locale, if all files can be read. -/
structure IsAbout (r : Request) (folder : Folder) (source : Source) : Prop where
  reads : ∀ source ∈ r.sources, folder.Reads source
  last : ∃ locale, r.target? = some locale ∧ (r.sources.filter (·.locale = locale)).getLast? = some source

/-- What stops a request: the first of its files that cannot be read; else a locale that none of them is for; else what
keeps the tree in the file that it is about from having a catalog. -/
inductive StoppedBy (r : Request) (folder : Folder) : Fault → Prop
  | unreadable {before after : List Source} {source : Source} {fault : Fault} :
      r.sources = before ++ source :: after → (∀ earlier ∈ before, folder.Reads earlier) →
      folder.Unreadable source fault → StoppedBy r folder fault
  | unknown_locale {locale : String} : (∀ source ∈ r.sources, folder.Reads source) → r.locale = some locale →
      (∀ source ∈ r.sources, source.locale ≠ locale) → StoppedBy r folder (.unknownLocale locale)
  | refused {source : Source} {fault : Fault} : r.IsAbout folder source →
      Catalog.Refused r.options (folder.treeOf source) fault → StoppedBy r folder fault

/-- What escapes a request: the first of its files that cannot be read has a fault that is not got over; else the tree in
the file that it is about exhausts the machine; else the report on that tree cannot be printed. -/
inductive EscapedBy (r : Request) (folder : Folder) (machine : Machine) : Fault → Prop
  | unreadable {before after : List Source} {source : Source} {fault : Fault} :
      r.sources = before ++ source :: after → (∀ earlier ∈ before, folder.Reads earlier) →
      folder.Unreadable source fault → escapes fault = true → EscapedBy r folder machine fault
  | exhausted {source : Source} : r.IsAbout folder source →
      machine.exhausted r.options (folder.treeOf source) = true → EscapedBy r folder machine Machine.tooDeep
  | unprintable {source : Source} {catalog : Catalog} : r.IsAbout folder source →
      machine.exhausted r.options (folder.treeOf source) = false →
      (Catalog.ofTable r.options (folder.treeOf source)).outcome = .ok catalog →
      machine.canPrint (r.style.render catalog) = false → EscapedBy r folder machine Machine.unprintable

theorem IsAbout.mem {source : Source} (h : r.IsAbout folder source) : source ∈ r.sources := by
  obtain ⟨locale, -, hlast⟩ := h.last
  exact List.mem_of_mem_filter (List.mem_of_getLast? hlast)

/-- The catalog that a request asks for is that of the tree in the file that it is about. -/
theorem IsAbout.catalog_eq {source : Source} (h : r.IsAbout folder source) :
    r.catalog folder machine = machine.analyse r.options (folder.treeOf source) := by
  obtain ⟨locale, htarget, hlast⟩ := h.last
  have hget : Ordered.get? locale (folder.treesOf (lastOfEach r.sources)) = some (folder.treeOf source) := by
    rw [Folder.treesOf_lastOfEach, Ordered.get?_mapValues, get?_byLocale, hlast]
    rfl
  have htree : representative (folder.treesOf (lastOfEach r.sources)) r.locale = .ok (folder.treeOf source) := by
    refine representative_eq_ok ?_ hget
    rw [Folder.treesOf_lastOfEach, Ordered.keys_mapValues, head?_keys_byLocale]
    exact htarget
  rw [catalog, Folder.readAll_eq_ok rfl h.reads, Audit.ofExcept_ok_bind, htree, Audit.ofExcept_ok_bind]

/-- The first file of a request that cannot be read decides the fault. -/
theorem outcome_of_unreadable {before after : List Source} {source : Source}
    (hsources : r.sources = before ++ source :: after) (hbefore : ∀ earlier ∈ before, folder.Reads earlier)
    (hsource : folder.Unreadable source fault) : (r.catalog folder machine).outcome = .error fault := by
  have hread : folder.readAll none r.sources = .error fault :=
    (Folder.readAll_eq_error_iff rfl).2 ⟨_, _, _, hsources, hbefore, hsource⟩
  rw [catalog, hread]
  rfl

/-- A request that is stopped has no catalog, for that fault, unless the machine is exhausted. -/
theorem StoppedBy.outcome_eq (h : r.StoppedBy folder fault)
    (hmachine : ∀ source, r.IsAbout folder source → machine.exhausted r.options (folder.treeOf source) = false) :
    (r.catalog folder machine).outcome = .error fault := by
  cases h with
  | unreadable hsources hbefore hsource => exact outcome_of_unreadable hsources hbefore hsource
  | unknown_locale hreads hlocale hno =>
    rename_i locale
    have hget : Ordered.get? locale (folder.treesOf (lastOfEach r.sources)) = none := by
      rw [Folder.treesOf_lastOfEach, Ordered.get?_mapValues, get?_byLocale,
        List.filter_eq_nil_iff.2 fun source hs => by simpa using hno source hs]
      rfl
    have hnone : representative (folder.treesOf (lastOfEach r.sources)) (some locale) =
        .error (.unknownLocale locale) := by
      simp only [representative, hget]
    rw [catalog, Folder.readAll_eq_ok rfl hreads, hlocale, Audit.ofExcept_ok_bind, hnone]
    rfl
  | refused habout hrefused =>
    rw [habout.catalog_eq, Machine.analyse_of_not_exhausted (hmachine _ habout)]
    exact hrefused.outcome_eq (habout.reads _ habout.mem).isProper

/-- What escapes a request ends it without an exit code. -/
theorem EscapedBy.run_escapes (h : r.EscapedBy folder machine fault) : (r.run folder machine).Escapes fault := by
  cases h with
  | unreadable hsources hbefore hsource hescapes =>
    exact run_of_escaping (outcome_of_unreadable hsources hbefore hsource) hescapes
  | exhausted habout hexhausted =>
    refine run_of_escaping ?_ rfl
    rw [habout.catalog_eq, Machine.analyse_of_exhausted hexhausted]
    rfl
  | unprintable habout hexhausted hcatalog hprint =>
    refine run_of_unprintable ?_ hprint
    rw [habout.catalog_eq, Machine.analyse_of_not_exhausted hexhausted]
    exact hcatalog

/-- **A request is about a file, or something stops it.** -/
theorem isAbout_or_stoppedBy (hfiles : r.files ≠ []) (folder : Folder) :
    (∃ source, r.IsAbout folder source) ∨ ∃ fault, r.StoppedBy folder fault := by
  cases hread : folder.readAll none r.sources with
  | error fault =>
    obtain ⟨before, source, after, hsources, hbefore, hsource⟩ := (Folder.readAll_eq_error_iff rfl).1 hread
    exact Or.inr ⟨fault, .unreadable hsources hbefore hsource⟩
  | ok trees =>
    obtain ⟨-, hreads, -⟩ := Folder.readAll_eq_ok_iff.1 hread
    obtain ⟨first, rest, hsources⟩ : ∃ first rest, r.sources = first :: rest :=
      List.exists_cons_of_ne_nil fun hnil => hfiles (List.map_eq_nil_iff.1 hnil)
    obtain ⟨locale, htarget⟩ : ∃ locale, r.target? = some locale := by
      rw [target?, hsources]
      cases r.locale with
      | none => exact ⟨first.locale, rfl⟩
      | some locale => exact ⟨locale, rfl⟩
    cases hlast : (r.sources.filter (·.locale = locale)).getLast? with
    | some source => exact Or.inl ⟨source, hreads, locale, htarget, hlast⟩
    | none =>
      have hno : ∀ source ∈ r.sources, source.locale ≠ locale := by
        intro source hs heq
        have hnone := List.filter_eq_nil_iff.1 (List.getLast?_eq_none_iff.1 hlast) source hs
        simp [heq] at hnone
      cases hl : r.locale with
      | some given =>
        obtain rfl : given = locale := by
          rw [target?, hl] at htarget
          exact Option.some.inj htarget
        exact Or.inr ⟨_, .unknown_locale hreads hl hno⟩
      | none =>
        -- the first file is one for its locale
        rw [target?, hl, hsources] at htarget
        exact absurd (Option.some.inj htarget) (hno first (by simp [hsources]))

/-- The first file of a request that cannot be read is not the YAML document that its suffix tells. -/
def MeetsBrokenYaml (r : Request) (folder : Folder) : Prop :=
  ∃ before source after bytes, r.sources = before ++ source :: after ∧ (∀ earlier ∈ before, folder.Reads earlier) ∧
    folder.Holds source .yaml bytes ∧ folder.parsers.yaml bytes = .error (.malformed .yaml)

/-- **Nothing else escapes a request**, if the parsers refuse documents as they are documented to and the machine has no
limits. -/
theorem escapedBy_iff_meetsBrokenYaml (hp : folder.parsers.Documented) (hm : machine.Unlimited) :
    r.EscapedBy folder machine fault ↔ fault = .malformed .yaml ∧ r.MeetsBrokenYaml folder := by
  constructor
  · intro h
    cases h with
    | unreadable hsources hbefore hsource hescapes =>
      cases hsource with
      | refused hholds hread =>
        rcases hp.read hread with ⟨rfl, rfl⟩ | hvalue
        · exact ⟨rfl, _, _, _, _, hsources, hbefore, hholds, hread⟩
        · cases hescapes.symm.trans (not_escapes_of_isOfValue hvalue)
      | _ => cases hescapes
    | exhausted _ hexhausted => cases hexhausted.symm.trans (hm.exhausted _ _)
    | unprintable _ _ _ hprint => cases hprint.symm.trans (hm.canPrint _)
  · rintro ⟨rfl, before, source, after, bytes, hsources, hbefore, hholds, hread⟩
    exact .unreadable hsources hbefore (.refused hholds hread) rfl

end Request

/-! ## Command lines -/

/-- **How a command line ends**, whatever the parsers and the machine are. It succeeds and prints one report, on the file
that it is about, without logging a fault; or it exits with 1, prints nothing and logs the one fault that stopped it.
Exactly if a fault escapes it does not end like this: then it prints nothing and logs no fault, and has no exit code.
With parsers that refuse documents as they are documented to, and on a machine without limits, a fault escapes exactly
if the first file that cannot be read is a broken YAML document. -/
theorem run_ends {folder : Folder} {args : List String} {r : Request} (hargs : Request.ofArguments args = .request r)
    (machine : Machine) :
    let ending := run folder args machine
    ((∀ fault, ¬r.EscapedBy folder machine fault) →
      (∃ source catalog, r.IsAbout folder source ∧
        (Catalog.ofTable r.options (folder.treeOf source)).outcome = .ok catalog ∧
        ending.Reports (r.style.render catalog)) ∨
      ∃ fault, r.StoppedBy folder fault ∧ ending.Fails fault) ∧
    (∀ fault, r.EscapedBy folder machine fault → ending.Escapes fault) ∧
    (folder.parsers.Documented → machine.Unlimited →
      ∀ fault, r.EscapedBy folder machine fault ↔ fault = .malformed .yaml ∧ r.MeetsBrokenYaml folder) := by
  intro ending
  have hrun : ending = r.run folder machine := by
    show run folder args machine = r.run folder machine
    rw [run, hargs]
  refine ⟨fun hno => ?_, fun fault hescaped => hrun ▸ hescaped.run_escapes,
    fun hp hm fault => Request.escapedBy_iff_meetsBrokenYaml hp hm⟩
  have hmachine : ∀ source, r.IsAbout folder source → machine.exhausted r.options (folder.treeOf source) = false :=
    fun source habout => Bool.eq_false_iff.2 fun h => hno _ (.exhausted habout h)
  have hfails : ∀ fault, r.StoppedBy folder fault → ending.Fails fault := by
    intro fault hstopped
    rw [hrun]
    refine Request.run_of_error (hstopped.outcome_eq hmachine) ?_
    cases hstopped with
    | unreadable hsources hbefore hsource =>
      exact Bool.eq_false_iff.2 fun h => hno fault (.unreadable hsources hbefore hsource h)
    | unknown_locale => rfl
    | refused _ hrefused => exact hrefused.not_escapes
  rcases Request.isAbout_or_stoppedBy (Request.files_ne_nil hargs) folder with ⟨source, habout⟩ | ⟨fault, hstopped⟩
  · have ht := (habout.reads source habout.mem).isProper
    have hstages : Catalog.Accepted r.options (folder.treeOf source) ∨ _ := Catalog.accepted_or_refused ht
    rcases hstages with haccepted | ⟨fault, hrefused⟩
    · obtain ⟨catalog, hcatalog⟩ := haccepted.exists_catalog ht
      have hexhausted := hmachine source habout
      refine Or.inl ⟨source, catalog, habout, hcatalog, ?_⟩
      rw [hrun]
      refine Request.run_of_ok ?_ (Bool.of_not_eq_false fun h =>
        hno _ (.unprintable habout hexhausted hcatalog h))
      rw [habout.catalog_eq, Machine.analyse_of_not_exhausted hexhausted]
      exact hcatalog
    · exact Or.inr ⟨fault, .refused habout hrefused, hfails fault (.refused habout hrefused)⟩
  · exact Or.inr ⟨fault, hstopped, hfails fault hstopped⟩

/-- A folder with a phrase file and three more that all hold the same text, which is no document of any format. -/
def brokenFiles : Folder where
  items := [(.ofText "en.json", .file "\x7b\"a\": \"A\"\x7d".toUTF8),
    (.ofText "bad.yaml", .file "a: \x7bb\n".toUTF8), (.ofText "bad.json", .file "a: \x7bb\n".toUTF8),
    (.ofText "bad.toml", .file "a: \x7bb\n".toUTF8)]

/-- A command line that is stopped by a broken TOML document behind a file that can be read fails, and one for the
latter alone succeeds. -/
theorem run_ends_broken_toml :
    let stopped : Request := { files := ["en.json", "bad.toml"] }
    let good : Request := { files := ["en.json"] }
    Request.ofArguments stopped.files = .request stopped ∧ Request.ofArguments good.files = .request good ∧
      ¬stopped.MeetsBrokenYaml brokenFiles ∧ ¬good.MeetsBrokenYaml brokenFiles ∧
      (∃ fault, stopped.StoppedBy brokenFiles fault ∧ (run brokenFiles stopped.files).Fails fault) ∧
      ∃ source catalog, good.IsAbout brokenFiles source ∧
        (run brokenFiles good.files).Reports (good.style.render catalog) := by
  intro stopped good
  have hstopped : Request.ofArguments stopped.files = .request stopped := by decide +kernel
  have hgood : Request.ofArguments good.files = .request good := by decide +kernel
  have hone : (run brokenFiles stopped.files).exit = .ok 1 := toOption_eq_some_iff.1 (by decide +kernel)
  have hzero : (run brokenFiles good.files).exit = .ok 0 := toOption_eq_some_iff.1 (by decide +kernel)
  obtain ⟨hends, hescapes, hexact⟩ := @run_ends brokenFiles _ _ hstopped {}
  obtain ⟨hends', hescapes', hexact'⟩ := @run_ends brokenFiles _ _ hgood {}
  have hmachine : Machine.Unlimited {} := ⟨fun _ _ => rfl, fun _ => rfl⟩
  have hno : ∀ fault, ¬stopped.EscapedBy brokenFiles {} fault :=
    fun fault h => by cases hone.symm.trans (hescapes fault h).exit
  have hno' : ∀ fault, ¬good.EscapedBy brokenFiles {} fault :=
    fun fault h => by cases hzero.symm.trans (hescapes' fault h).exit
  refine ⟨hstopped, hgood, fun h => hno _ ((hexact Parsers.documented_standard hmachine _).2 ⟨rfl, h⟩),
    fun h => hno' _ ((hexact' Parsers.documented_standard hmachine _).2 ⟨rfl, h⟩), ?_, ?_⟩
  · rcases hends hno with ⟨_, _, -, -, hreports⟩ | hfails
    · cases hone.symm.trans hreports.exit
    · exact hfails
  · rcases hends' hno' with ⟨source, catalog, habout, -, hreports⟩ | ⟨_, -, hfails⟩
    · exact ⟨source, catalog, habout, hreports⟩
    · cases hzero.symm.trans hfails.exit

/-- **A broken YAML document is not got over.** The same text ends a run with the exit code 1 if the suffix of the file
tells another format. -/
theorem broken_yaml_escapes :
    Request.ofArguments ["bad.yaml"] = .request { files := ["bad.yaml"] } ∧
      (∀ code, (run brokenFiles ["bad.yaml"]).exit ≠ .ok code) ∧
      (run brokenFiles ["bad.json"]).exit = .ok 1 ∧ (run brokenFiles ["bad.toml"]).exit = .ok 1 := by
  have hnone : (run brokenFiles ["bad.yaml"]).exit.toOption = none := by decide +kernel
  refine ⟨by decide +kernel, fun code hexit => ?_, toOption_eq_some_iff.1 (by decide +kernel),
    toOption_eq_some_iff.1 (by decide +kernel)⟩
  rw [hexit] at hnone
  cases hnone

end CommandLine

end Phrasebook
