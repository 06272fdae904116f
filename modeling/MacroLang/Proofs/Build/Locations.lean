import MacroLang.Proofs.Build.Functions
import MacroLang.Proofs.Build.Origin
import MacroLang.Proofs.Source.Spelling

/-!
# Where errors are located

An error names the file of the unit that is being compiled, and the line and column of the node it arose at. But nodes
know nothing of files, and the node may be one of an earlier unit: of a function that is called, or of the body of a
macro. So the line and column are those of a token in the source of the unit or in the source of an earlier one,
although the file is the unit's own in both cases. The earlier unit must have been compiled and must have a module;
units that failed, and scripts, leave nothing that a later unit could run (`Compilation.Offers.rollBack`).

Main statement: `compile_error_startsToken`.
-/

namespace MacroLang

variable {P P' : Position → Prop}

/-! ## Messages -/

theorem toList_toString_nat (n : Nat) : (toString n).toList = Nat.toDigits 10 n := by
  show n.repr.toList = _
  rw [Nat.repr_eq_ofList_toDigits, String.toList_ofList]

theorem toDigits_inj {m n : Nat} (h : Nat.toDigits 10 m = Nat.toDigits 10 n) : m = n := by
  rw [← @Nat.ofDigitChars_ten_toDigits m, h, Nat.ofDigitChars_ten_toDigits]

theorem not_mem_toDigits {c : Char} (hc : c.isDigit = false) (n : Nat) : c ∉ Nat.toDigits 10 n := by
  intro hmem
  rw [isDigit_toDigits n c hmem] at hc
  cases hc

/-- What begins with a blank does not begin with a number. -/
theorem blank_cons_ne_toDigits_append (n : Nat) (rest rest' : List Char) :
    ' ' :: rest ≠ Nat.toDigits 10 n ++ rest' := by
  intro h
  cases hdigits : Nat.toDigits 10 n with
  | nil => exact Nat.toDigits_ne_nil hdigits
  | cons c cs =>
    rw [hdigits, List.cons_append] at h
    have hmem : c ∈ Nat.toDigits 10 n := hdigits ▸ List.mem_cons_self
    rw [← (List.cons.inj h).1] at hmem
    exact not_mem_toDigits rfl n hmem

/-- The first colon divides a text in one way only. -/
theorem divide_at_colon {x x' y y' : List Char} (hx : ':' ∉ x) (hx' : ':' ∉ x') (h : x ++ ':' :: y = x' ++ ':' :: y') :
    x = x' ∧ y = y' := by
  have hlength : x.length = x'.length := by
    have hindex := congrArg (List.idxOf ':') h
    simpa [List.idxOf_append_of_notMem hx, List.idxOf_append_of_notMem hx'] using hindex
  obtain ⟨hfirst, hrest⟩ := List.append_inj h hlength
  exact ⟨hfirst, (List.cons.inj hrest).2⟩

/-- What is written of a place: nothing, a line, or a line and a column of one of the places. -/
theorem Info.IsFrom.location {i : Info} (h : i.IsFrom P) : i.location.toList = [] ∨ ∃ p, P p ∧
    (i.location.toList = Nat.toDigits 10 p.line ∨
      i.location.toList = Nat.toDigits 10 p.line ++ ':' :: Nat.toDigits 10 p.column) := by
  rcases h with ⟨hline, -⟩ | ⟨p, hp, hline, hcolumn⟩
  · left
    rw [Info.location, hline]
    rfl
  · have hwritten : ∀ n : Nat, (Datum.int n).written.toList = Nat.toDigits 10 n := toList_toString_nat
    unfold Info.location
    rw [hline, hcolumn]
    split
    · exact .inl rfl
    · rename_i line hset _
      obtain ⟨hl, -⟩ := Option.filter_eq_some_iff.1 hset
      cases hl
      exact .inr ⟨p, hp, .inl (hwritten p.line)⟩
    · rename_i line column hset hset'
      obtain ⟨hl, -⟩ := Option.filter_eq_some_iff.1 hset
      obtain ⟨hc, -⟩ := Option.filter_eq_some_iff.1 hset'
      cases hl
      cases hc
      refine .inr ⟨p, hp, .inr ?_⟩
      simp [hwritten]

theorem Error.message_located {file : String} (hfile : file ≠ "") (cause : Cause) (info : Info) :
    (Error.located cause info (some file)).message =
      if info.location = "" then file ++ ": " ++ cause.message
      else file ++ ":" ++ info.location ++ ": " ++ cause.message := by
  have hempty : file.isEmpty = false := by simpa using hfile
  unfold Error.message Error.place
  dsimp only
  rw [hempty]
  by_cases hlocation : info.location = ""
  · rw [if_pos hlocation, hlocation]
    rfl
  · have hnonempty : info.location.isEmpty = false := by simpa using hlocation
    rw [if_neg hlocation, hnonempty]
    simp

/-- If a message gives a file, a line and a column, then these are the place of the error. -/
theorem Error.place_of_message {file : String} (hfile : file ≠ "") {cause : Cause} {info : Info} (hinfo : info.IsFrom P)
    {line column : Nat} {text : String}
    (h : (Error.located cause info (some file)).message =
      file ++ ":" ++ toString line ++ ":" ++ toString column ++ ": " ++ text) : P ⟨line, column⟩ := by
  have hcolon := not_mem_toDigits (c := ':') rfl
  have hchars := congrArg String.toList h
  rw [Error.message_located hfile, apply_ite String.toList] at hchars
  have hplaced : info.location.toList ≠ [] → info.location.toList ++ ':' :: ' ' :: cause.message.toList =
      Nat.toDigits 10 line ++ ':' :: (Nat.toDigits 10 column ++ ':' :: ' ' :: text.toList) := by
    intro hsome
    rw [if_neg (mt String.toList_eq_nil_iff.2 hsome)] at hchars
    simpa [toList_toString_nat] using hchars
  rcases hinfo.location with hnone | ⟨p, hp, hline | hboth⟩
  · rw [if_pos (String.toList_eq_nil_iff.1 hnone)] at hchars
    have hrest : ' ' :: cause.message.toList =
        Nat.toDigits 10 line ++ ':' :: (Nat.toDigits 10 column ++ ':' :: ' ' :: text.toList) := by
      simpa [toList_toString_nat] using hchars
    exact absurd hrest (blank_cons_ne_toDigits_append _ _ _)
  · rw [hline] at hplaced
    obtain ⟨-, hrest⟩ := divide_at_colon (hcolon _) (hcolon _) (hplaced Nat.toDigits_ne_nil)
    exact absurd hrest (blank_cons_ne_toDigits_append _ _ _)
  · rw [hboth, List.append_assoc, List.cons_append] at hplaced
    obtain ⟨hline, hrest⟩ := divide_at_colon (hcolon _) (hcolon _) (hplaced (by simp))
    obtain ⟨hcolumn, -⟩ := divide_at_colon (hcolon _) (hcolon _) hrest
    rw [← toDigits_inj hline, ← toDigits_inj hcolumn]
    exact hp

/-! ## What units leave behind -/

theorem Compilation.OffersFrom.mono {c : Compilation MacroBody} (h : c.OffersFrom P) (himp : ∀ p, P p → P' p) :
    c.OffersFrom P' :=
  fun file => (h file).mono fun _ hv i hi => (hv i hi).mono himp

/-- Modules that have gained functions. -/
theorem meets_of_extendsBy {S : Standard} {allowed : String → Function → Prop} {mods mods' : List Module}
    (h : List.Forall₂ (Module.ExtendsBy allowed) mods mods') (hmods : ∀ m ∈ mods, m.Meets S)
    (hallowed : ∀ m ∈ mods, ∀ f, allowed m.name f → f.Meets S) : ∀ m ∈ mods', m.Meets S := by
  induction h with
  | nil => exact List.forall_mem_nil _
  | cons hm _ ih =>
    rw [List.forall_mem_cons] at hmods hallowed
    refine List.forall_mem_cons.2 ⟨?_, ih hmods.2 hallowed.2⟩
    obtain ⟨added, hadded, hfunctions⟩ := hm.functions
    rw [Module.Meets, hfunctions]
    exact List.forall_mem_append.2 ⟨hmods.1, fun f hf => hallowed.1 f (hadded f hf)⟩

/-- A unit without modules publishes and loads nothing. -/
theorem Completed.rolledBack {c c' : Compilation MacroBody} (h : Completed c [] c') : RolledBack c c' := by
  obtain ⟨old, new, hmodules, hold, hexact, hnew⟩ := h.world
  rw [List.map_eq_nil_iff.1 hnew, List.append_nil] at hmodules
  refine ⟨?_, .inr h.count, h.others, h.homes, hmodules ▸ hold, fun hzero => hmodules.trans (hexact hzero)⟩
  rw [h.published, List.map_nil, List.append_nil]

/-- A unit that is rolled back leaves nothing of its own. The functions that old modules have gained are from the macros
that were published before. -/
theorem Compilation.Offers.rollBack {S : Standard} {units : List CompiledUnit} {c c' : Compilation MacroBody}
    (hstep : InStep units c) (h : c.Offers S) (hrolled : RolledBack c c') : c'.Offers S := by
  refine ⟨meets_of_extendsBy hrolled.gained h.world fun m hm f hf => ?_, fun m hm => ?_⟩
  · rcases hf with hscript | ⟨q, k, hq, hk, -, hdefines⟩
    · have hname : m.name ∈ c.session.published.map Prod.fst := hstep.loaded ▸ List.mem_map_of_mem hm
      exact absurd (hscript ▸ hname) (List.nodup_cons.1 hstep.nodup).1
    · exact MacroBody.meets_definitions (h.session k (.inr ⟨q, hq, hk⟩)) hdefines
  · rcases hm with hown | ⟨q, hq, hm⟩
    · rw [Session.registry_of_le _ (Nat.le_refl _)] at hown
      cases hown
    · rw [Session.publisher?, hrolled.published] at hq
      rw [hrolled.others q (hstep.publisher?_lt hq)] at hm
      exact h.session m (.inr ⟨q, hq, hm⟩)

/-! ## Requests -/

/-- A token of one of the sources, which are given with their files, starts there. -/
def StartsIn (sources : List (String × String)) (p : Position) : Prop :=
  ∃ s ∈ sources, p ∈ tokenStarts s.1 s.2

/-- The sources that are compiled into units with modules, if sources are compiled in order up to the first failure. -/
def moduleSourcesInOrder (o : Settings) (runScript : Bool) :
    List (String × String) → Compilation MacroBody → List (String × String)
  | [], _ => []
  | (file, source) :: rest, c =>
    match compile o file runScript source c with
    | .ok u c' => (if u.modules = [] then [] else [(file, source)]) ++ moduleSourcesInOrder o runScript rest c'
    | .error _ _ => []

/-- The sources that the request compiles into units with modules, also if it fails in the end. -/
def Request.moduleSources (o : Settings) : Request → Compilation MacroBody → List (String × String)
  | compile file source runScript => moduleSourcesInOrder o runScript [(file, source)]
  | compileUnits sources => moduleSourcesInOrder { o with jobs := some 1 } true sources
  | _ => fun _ => []

/-- The sources of all units with modules that come of requests after the given history. -/
def History.moduleSources (o : Settings) : History → List Request → List (String × String)
  | _, [] => []
  | h, request :: rest => request.moduleSources o h.compilation ++ moduleSources o (h.next o request) rest

/-- One compilation, from a state that offers code from some sources only. -/
theorem compile_startsIn (o : Settings) (file : String) (runScript : Bool) (source : String) {units : List CompiledUnit}
    {sources : List (String × String)} {c : Compilation MacroBody} (hstep : InStep units c)
    (h : c.OffersFrom (StartsIn sources)) :
    Ends (fun u c' => c'.OffersFrom (StartsIn (sources ++ if u.modules = [] then [] else [(file, source)])))
      (fun e c' => c'.OffersFrom (StartsIn sources) ∧ ∀ cause info name, e = .located cause info name →
        name = some file ∧ info.IsFrom (StartsIn (sources ++ [(file, source)])))
      (compile o file runScript source c) := by
  have hsource : ∀ p ∈ tokenStarts file source, StartsIn (sources ++ [(file, source)]) p :=
    fun p hp => ⟨(file, source), List.mem_append_right _ List.mem_cons_self, hp⟩
  have hboth : c.OffersFrom (StartsIn (sources ++ [(file, source)])) :=
    h.mono fun p ⟨s, hs, hp⟩ => ⟨s, List.mem_append_left _ hs, hp⟩
  have hmade := ensures_compile_offersFrom o runScript hsource c hboth
  cases hrun : compile o file runScript source c with
  | ok u c' =>
    rw [hrun] at hmade
    show c'.OffersFrom (StartsIn (sources ++ if u.modules = [] then [] else [(file, source)]))
    split
    · rename_i hnone
      rw [List.append_nil]
      have hcompleted := ((ensures_compile file runScript source).of_ok rfl hrun).2
      rw [hnone] at hcompleted
      exact fun file => (h file).rollBack hstep hcompleted.rolledBack
    · exact hmade
  | error e c' =>
    rw [hrun] at hmade
    have hrolled := ((ensures_compile file runScript source).of_error rfl hrun).1
    exact ⟨fun file => (h file).rollBack hstep hrolled, hmade.2⟩

/-- The code leaves what is from the sources so far, or from those that it compiles into units with modules. -/
structure KeepsOrigin {α : Type} (code : Compile α) (found : Compilation MacroBody → List (String × String)) :
    Prop where
  ends : ∀ units sources c, InStep units c → c.OffersFrom (StartsIn sources) →
    Ends (fun _ c' => c'.OffersFrom (StartsIn (sources ++ found c)))
      (fun _ c' => c'.OffersFrom (StartsIn (sources ++ found c))) (code c)

namespace KeepsOrigin

variable {α : Type} {code : Compile α} {found : Compilation MacroBody → List (String × String)} {o : Settings}

theorem discard (h : KeepsOrigin code found) : KeepsOrigin (Functor.discard code) found :=
  ⟨fun units sources c hstep hc => (h.ends units sources c hstep hc).map fun _ => PUnit.unit⟩

/-- Code that compiles nothing. -/
theorem of_maintains
    (h : ∀ sources, Maintains (Compilation.OffersFrom (StartsIn sources)) (·.isConflict = false) code) :
    KeepsOrigin code fun _ => [] := by
  constructor
  intro units sources c _ hc
  rw [List.append_nil]
  have hcode := h sources c hc
  cases hrun : code c with
  | ok a c' => rw [hrun] at hcode; exact hcode
  | error e c' => rw [hrun] at hcode; exact hcode.1

theorem compileInOrder (sources : List (String × String)) :
    KeepsOrigin (MacroLang.compileInOrder o sources) (moduleSourcesInOrder o true sources) := by
  induction sources with
  | nil => exact of_maintains fun _ => .pure _
  | cons first rest ih =>
    obtain ⟨file, source⟩ := first
    constructor
    intro units sources c hstep hc
    have hfirst := compile_startsIn o file true source hstep hc
    have hnext : Ends _ _ (MacroLang.compile o file true source c) :=
      (KeepsStep.compile file true source).ends units c hstep
    rw [MacroLang.compileInOrder, bind_apply]
    rw [moduleSourcesInOrder]
    cases hrun : MacroLang.compile o file true source c with
    | error e c' =>
      rw [hrun] at hfirst
      rw [List.append_nil]
      exact hfirst.1
    | ok u c' =>
      rw [hrun] at hfirst hnext
      have hrest := ih.ends _ _ c' hnext hfirst
      rw [List.append_assoc] at hrest
      exact hrest.map (u :: ·)

theorem callFunction (function : String) (args : List Value) :
    KeepsOrigin (MacroLang.callFunction o function args) fun _ => [] :=
  of_maintains fun _ => maintains_callFunction mindsModules_offersFrom _ _

theorem runUnit (u : CompiledUnit) : KeepsOrigin (MacroLang.runUnit o u) fun _ => [] :=
  of_maintains fun _ => maintains_runForms mindsModules_offersFrom _ _

theorem compile (file : String) (runScript : Bool) (source : String) :
    KeepsOrigin (MacroLang.compile o file runScript source) (moduleSourcesInOrder o runScript [(file, source)]) := by
  constructor
  intro units sources c hstep hc
  have hcompile := compile_startsIn o file runScript source hstep hc
  rw [moduleSourcesInOrder]
  cases hrun : MacroLang.compile o file runScript source c with
  | ok u c' =>
    rw [hrun] at hcompile
    show c'.OffersFrom (StartsIn (sources ++ (_ ++ [])))
    rw [List.append_nil]
    exact hcompile
  | error e c' =>
    rw [hrun] at hcompile
    show c'.OffersFrom (StartsIn (sources ++ []))
    rw [List.append_nil]
    exact hcompile.1

theorem request (request : Request) : KeepsOrigin (request.code o) (request.moduleSources o) := by
  cases request with
  | compile file source runScript => exact (KeepsOrigin.compile file runScript source).discard
  | compileUnits sources => exact (KeepsOrigin.compileInOrder sources).discard
  | run function args => exact (KeepsOrigin.callFunction function args).discard
  | rerun u => exact (KeepsOrigin.runUnit u).discard

end KeepsOrigin

theorem History.offers_foldl {h : History} (hsound : h.Sound) (o : Settings) {sources : List (String × String)}
    (hoffers : h.compilation.OffersFrom (StartsIn sources)) (requests : List Request) :
    (requests.foldl (History.next o) h).compilation.OffersFrom (StartsIn (sources ++ h.moduleSources o requests)) := by
  induction requests generalizing h sources with
  | nil =>
    rw [moduleSources, List.append_nil]
    exact hoffers
  | cons request requests ih =>
    have hnext : (h.next o request).compilation.OffersFrom
        (StartsIn (sources ++ request.moduleSources o h.compilation)) := by
      have hkeeps : KeepsOrigin (request.code o) (request.moduleSources o) := .request request
      have hrequest := hkeeps.ends h.units sources h.compilation hsound.inStep hoffers
      unfold History.next
      cases hcode : request.code o h.compilation with
      | ok a c => rw [hcode] at hrequest; exact hrequest
      | error e c => rw [hcode] at hrequest; exact hrequest
    rw [moduleSources, ← List.append_assoc]
    exact ih (hsound.next o request) hnext

theorem Compilation.OffersFrom.start : Compilation.OffersFrom P {} := by
  refine fun file => ⟨List.forall_mem_nil _, fun m hm => ?_⟩
  rcases hm with hown | ⟨q, hq, -⟩
  · rw [Session.registry_of_le _ (Nat.le_refl _)] at hown
    cases hown
  · cases hq

/-- If compiling a source after any requests to a compiler ends in an error that can be located, then the error names
the file. If its message also gives a line and a column, then a token starts there: a token of the source, or one of an
earlier source that was compiled into a unit with modules. -/
theorem compile_error_startsToken (o : Settings) (requests : List Request) {file : String} (hfile : file ≠ "")
    (runScript : Bool) (source : String) {e : Error}
    (herror : finalError? (compile o file runScript source (History.ofRequests o requests).compilation) = some e)
    (hlocated : e.isLocated = true) :
    (∃ cause info, e = .located cause info (some file)) ∧ ∀ (line column : Nat) (text : String),
      e.message = file ++ ":" ++ toString line ++ ":" ++ toString column ++ ": " ++ text →
      ⟨line, column⟩ ∈ tokenStarts file source ∨
        ∃ s ∈ History.moduleSources o {} requests, ⟨line, column⟩ ∈ tokenStarts s.1 s.2 := by
  have hstart : History.Sound {} := ⟨.start, List.forall_mem_nil _⟩
  have hsound : (History.ofRequests o requests).Sound := History.sound_foldl hstart o requests
  have hoffers : (History.ofRequests o requests).compilation.OffersFrom
      (StartsIn (History.moduleSources o {} requests)) :=
    History.offers_foldl hstart o (Compilation.OffersFrom.start (P := StartsIn [])) requests
  have hends := compile_startsIn o file runScript source hsound.inStep hoffers
  obtain ⟨c, hrun⟩ := finalError?_eq_some.1 herror
  rw [hrun] at hends
  obtain ⟨cause, info, name, rfl⟩ := Error.isLocated_iff.1 hlocated
  obtain ⟨rfl, hinfo⟩ := hends.2 cause info name rfl
  refine ⟨⟨cause, info, rfl⟩, fun line column text hmessage => ?_⟩
  obtain ⟨s, hs, hp⟩ := Error.place_of_message hfile hinfo hmessage
  rcases List.mem_append.1 hs with hearlier | hown
  · exact .inr ⟨s, hearlier, hp⟩
  · rw [List.mem_singleton.1 hown] at hp
    exact .inl hp

/-- The body of a macro fails when a later unit calls the macro. -/
theorem compile_error_startsToken_macro :
    let requests : List Request := [.compile "lib.mex" "<defmodule M <defmacro boom () <hd ()>>>" true]
    let result := compile {} "app.mex" true "<require M> <M.boom>" (History.ofRequests {} requests).compilation
    ∃ cause info, finalError? result = some (.located cause info (some "app.mex")) ∧
      (⟨1, 32⟩ ∈ tokenStarts "app.mex" "<require M> <M.boom>" ∨
        ∃ s ∈ History.moduleSources {} {} requests, ⟨1, 32⟩ ∈ tokenStarts s.1 s.2) := by
  intro requests result
  have hfacts : (finalError? result).map (fun e => (e.isLocated, e.message)) =
      some (true, "app.mex:1:32: hd of an empty list") := by
    unfold result requests
    delta History.ofRequests History.next Request.code compile compileForms Build.unit Build.module Build.expandScope
    rw [Build.forms_eq_foldr]
    decide +kernel
  obtain ⟨e, herror, hfacts⟩ := Option.map_eq_some_iff.1 hfacts
  obtain ⟨hlocated, hmessage⟩ := Prod.mk.inj hfacts
  obtain ⟨⟨cause, info, rfl⟩, hplace⟩ := compile_error_startsToken {} requests (by decide) true _ herror hlocated
  exact ⟨cause, info, herror, hplace 1 32 "hd of an empty list" hmessage⟩

/-- A function fails that an earlier unit has defined. The message gives the place in the source of that unit, and the
file of the unit that calls the function. No token of the latter starts there. -/
theorem error_place_of_earlier_unit :
    let requests : List Request :=
      [.compile "lib.mex" "\n\n<defmodule M <def boom () <hd ()>>>" true, .compile "app.mex" "<M.boom>" true]
    (History.ofRequests {} requests).errors.map (·.message) = ["app.mex:3:27: hd of an empty list"] ∧
      ⟨3, 27⟩ ∉ tokenStarts "app.mex" "<M.boom>" ∧
      ⟨3, 27⟩ ∈ tokenStarts "lib.mex" "\n\n<defmodule M <def boom () <hd ()>>>" := by
  delta History.ofRequests History.next Request.code compile compileForms Build.unit Build.module Build.expandScope
  rw [Build.forms_eq_foldr]
  decide +kernel

end MacroLang
