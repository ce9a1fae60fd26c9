import Mathlib.Data.List.ProdSigma
import Sameness.Proofs.PredicateTable

/-!
The log of the calls beside the table.

The table goes to one stream and the log to another, but both are told of the same calls: when calls
are traced, there is one line in the log for each cell of the table, and it says what the table
says. A filter that is set from outside may keep lines back, and adds none.
-/

namespace Sameness

open Lines (Unbroken)

/-- What is relied on of a logger: a level as a filter lets pass what is not chattier, and in front
of the text of a line stand the time, which is one word, the level and the source. -/
structure Logger.Standard (logger : Logger) (time : Nat → String) : Prop where
  passes (level : Level) (line : LogLine) :
    logger.passes level.filter line = true ↔ line.level.verbosity ≤ level.verbosity
  format (n : Nat) {line : LogLine} : Unbroken line.text →
    logger.format n line =
      "[" ++ time n ++ " " ++ line.level.column ++ " " ++ line.source ++ "] " ++ line.text
  unbroken (n : Nat) : Unbroken (time n)
  word (n : Nat) : ' ' ∉ (time n).toList

theorem Logger.stamped_standard {time : Nat → String} (hunbroken : ∀ n, Unbroken (time n))
    (hword : ∀ n, ' ' ∉ (time n).toList) : (Logger.stamped time).Standard time where
  passes level line := by
    have hfind : Level.all.find? (·.filter == level.filter) = some level := by
      cases level <;> decide
    simp only [Logger.stamped, hfind, decide_eq_true_eq]
  format _ _ _ := rfl
  unbroken := hunbroken
  word := hword

theorem Logger.Standard.unbroken_format {logger : Logger} {time : Nat → String}
    (h : logger.Standard time) (n : Nat) {line : LogLine} (hsource : Unbroken line.source)
    (htext : Unbroken line.text) : Unbroken (logger.format n line) := by
  have hcolumn : Unbroken line.level.column := by
    cases line.level <;> decide
  rw [h.format n htext]
  simp only [Lines.unbroken_append]
  exact ⟨⟨⟨⟨⟨⟨⟨by decide, h.unbroken n⟩, by decide⟩, hcolumn⟩, by decide⟩, hsource⟩, by decide⟩,
    htext⟩

namespace Report

variable {o : Options} {st : Store} {c : Case} {cs : List Case} {ps : List Predicate}
  {entry : Case → Entry} {line : LogLine} {logger : Logger} {time : Nat → String}

/-! ### Lines of the log -/

/-- The level stands behind the first blank, with one more blank behind it. -/
def IsTrace (s : String) : Prop := " TRACE ".toList <+: s.toList.dropWhile (· ≠ ' ')

instance : DecidablePred IsTrace := fun _ => inferInstanceAs (Decidable (_ <+: _))

def traceLines (r : Report) : List String := r.errorLines.filter IsTrace

theorem trace_isPrefix_iff {level : Level} {rest : List Char} :
    " TRACE ".toList <+: ' ' :: (level.column.toList ++ ' ' :: rest) ↔ level = .trace := by
  have hwarn : Level.warn.column = "WARN " := by decide
  have hinfo : Level.info.column = "INFO " := by decide
  have hdebug : Level.debug.column = "DEBUG" := by decide
  have htrace : Level.trace.column = "TRACE" := by decide
  cases level <;> simp [hwarn, hinfo, hdebug, htrace]

theorem isTrace_format_iff (h : logger.Standard time) (n : Nat) (htext : Unbroken line.text) :
    IsTrace (logger.format n line) ↔ line.level = .trace := by
  let front : List Char := '[' :: (time n).toList
  let rest : List Char := line.source.toList ++ ("] ".toList ++ line.text.toList)
  have hchars : (logger.format n line).toList =
      front ++ ' ' :: (line.level.column.toList ++ ' ' :: rest) := by
    simp [h.format n htext, front, rest]
  have hfront : ∀ c ∈ front, decide (c ≠ ' ') = true := by
    refine List.forall_mem_cons.2 ⟨by decide, fun c hc => decide_eq_true fun heq => ?_⟩
    exact h.word n (heq ▸ hc)
  rw [IsTrace, hchars, List.dropWhile_append_of_pos hfront, List.dropWhile_cons_of_neg (by simp)]
  exact trace_isPrefix_iff

/-- The lines of a level are found again in what is printed, in their order. -/
theorem forall₂_filter_mapIdx {format : Nat → LogLine → String} {lines : List LogLine}
    (h : ∀ n, ∀ line ∈ lines, IsTrace (format n line) ↔ line.level = .trace) :
    List.Forall₂ (fun line s => ∃ n, s = format n line)
      (lines.filter fun line => line.level = .trace) ((lines.mapIdx format).filter IsTrace) := by
  induction lines generalizing format with
  | nil => exact .nil
  | cons line lines ih =>
    have hline : IsTrace (format 0 line) ↔ line.level = .trace := h 0 line List.mem_cons_self
    have hlines := ih fun n l hl => h (n + 1) l (List.mem_cons_of_mem line hl)
    have hbehind : List.Forall₂ (fun line s => ∃ n, s = format n line)
        (lines.filter fun line => line.level = .trace)
        ((lines.mapIdx fun n => format (n + 1)).filter IsTrace) :=
      hlines.imp fun _ _ ⟨n, hn⟩ => ⟨n + 1, hn⟩
    rw [List.mapIdx_cons]
    by_cases hlevel : line.level = .trace
    · rw [List.filter_cons_of_pos (by simpa using hlevel),
        List.filter_cons_of_pos (by simpa using hline.2 hlevel)]
      exact .cons ⟨0, rfl⟩ hbehind
    · rw [List.filter_cons_of_neg (by simpa using hlevel),
        List.filter_cons_of_neg (by simpa using mt hline.1 hlevel)]
      exact hbehind

theorem threshold_of_two_le {n : Nat} (h : 2 ≤ n) : threshold n = .trace := by
  obtain ⟨m, rfl⟩ := Nat.exists_eq_add_of_le' h
  rfl

/-! ### Lines in one piece -/

theorem unbroken_namesText {names : List String} (h : ∀ s ∈ names, Unbroken s) :
    Unbroken (namesText names) := by
  simp only [namesText, Lines.unbroken_append]
  refine ⟨⟨by decide, Lines.unbroken_intercalate (by decide) fun s hs => ?_⟩, by decide⟩
  obtain ⟨name, hname, rfl⟩ := List.mem_map.1 hs
  simp only [Lines.unbroken_append]
  exact ⟨⟨by decide, h name hname⟩, by decide⟩

theorem unbroken_openingLines (o : Options) (hst : st.UnbrokenNames) :
    ∀ line ∈ openingLines o st, Unbroken line.source ∧ Unbroken line.text := by
  unfold openingLines
  rw [List.forall_mem_append]
  refine ⟨List.forall_mem_singleton.2 ⟨(by decide : Unbroken Engine.source), ?_⟩,
    fun line hline => ?_⟩
  · cases decide (2 ≤ o.verbosity) <;> decide
  · obtain ⟨⟨name, id⟩, hname, rfl⟩ := List.mem_map.1 hline
    have hmem : name ∈ st.symbols.names :=
      Array.mem_toList_iff.1 (List.fst_mem_of_mem_zipIdx hname)
    refine ⟨(by decide : Unbroken "schemeq::interning"), ?_⟩
    simp only [internedLine, Lines.unbroken_append]
    exact ⟨⟨⟨by decide, hst.symbols name hmem⟩, by decide⟩, unbroken_toString id⟩

theorem unbroken_announcement (cs : List Case) (ps : List Predicate) :
    Unbroken (announcement cs (ps.map Predicate.name)).text := by
  simp only [announcement, Lines.unbroken_append]
  refine ⟨⟨⟨by decide, unbroken_toString cs.length⟩, by decide⟩,
    unbroken_namesText fun s hs => ?_⟩
  obtain ⟨p, -, rfl⟩ := List.mem_map.1 hs
  cases p <;> decide

namespace Entry

variable {e : Entry}

/-- The line for the call behind a cell: what is called, both sides of the row, and the verdict. -/
def callLine (e : Entry) (time : String) (p : Predicate) : String :=
  "[" ++ time ++ " TRACE schemeq::runtime] (" ++ p.name ++ " " ++ e.left ++ " " ++ e.right ++
    ") => " ++ if e.verdict p then "#t" else "#f"

theorem Tells.unbroken_call (h : e.Tells st c) (hst : st.UnbrokenNames) (p : Predicate) :
    Unbroken (e.call p).text := by
  have hname : Unbroken p.name := (Builtin.compare p).unbroken_name
  simp only [call, Engine.callText, String.intercalate_cons_cons, String.intercalate_singleton,
    Lines.unbroken_append]
  exact ⟨⟨⟨⟨⟨by decide, hname⟩, by decide⟩, ⟨⟨hst.write h.left, by decide⟩, hst.write h.right⟩⟩,
    by decide⟩, unbroken_boolText _⟩

theorem Tells.format_call (h : e.Tells st c) (hst : st.UnbrokenNames)
    (hlogger : logger.Standard time) (n : Nat) (p : Predicate) :
    logger.format n (e.call p) = e.callLine (time n) p := by
  have hmark : " TRACE schemeq::runtime] (" =
      " " ++ (Level.trace.column ++ (" " ++ (Engine.source ++ ("] " ++ "(")))) := by
    decide
  rw [hlogger.format n (h.unbroken_call hst p)]
  simp only [call, Engine.callText, callLine, hmark, Builtin.name, boolText,
    String.intercalate_cons_cons, String.intercalate_singleton, String.append_assoc]

end Entry

/-! ### Calls in the log -/

theorem tracedCalls_of_lt (h : o.verbosity < 2) : tracedCalls entry o cs ps = [] := by
  rw [tracedCalls, if_neg (Nat.not_le.2 h)]

theorem tracedCalls_of_le (h : 2 ≤ o.verbosity) :
    tracedCalls entry o cs ps = (cs ×ˢ ps).map fun (c, p) => (entry c).call p := by
  rw [tracedCalls, if_pos h]
  simp [SProd.sprod, List.product, List.map_flatMap, Function.comp_def]

theorem exists_of_mem_tracedCalls (h : line ∈ tracedCalls entry o cs ps) :
    ∃ c ∈ cs, ∃ p, line = (entry c).call p := by
  unfold tracedCalls at h
  split at h
  · obtain ⟨c, hc, hline⟩ := List.mem_flatMap.1 h
    obtain ⟨p, -, rfl⟩ := List.mem_map.1 hline
    exact ⟨c, hc, p, rfl⟩
  · cases h

/-- Apart from the calls nothing is logged at the chattiest level. -/
theorem filter_logLines (entry : Case → Entry) (o : Options) (ps : List Predicate) :
    (logLines entry o ps).filter (fun l => l.level = .trace) =
      if o.list then [] else tracedCalls entry o (wanted o) (asked ps) := by
  have hopening : (openingLines o Catalogue.store).filter (fun l => l.level = .trace) = [] := by
    rw [List.filter_eq_nil_iff]
    intro line hline
    rcases List.mem_append.1 hline with hcreated | hinterned
    · rw [List.mem_singleton.1 hcreated]
      simp
    · obtain ⟨⟨name, id⟩, -, rfl⟩ := List.mem_map.1 hinterned
      simp [internedLine]
  have hcalls : ∀ line ∈ tracedCalls entry o (wanted o) (asked ps),
      decide (line.level = .trace) = true := by
    intro line hline
    obtain ⟨c, -, p, rfl⟩ := exists_of_mem_tracedCalls hline
    rfl
  rw [logLines, List.filter_append, hopening, List.nil_append]
  split
  · rfl
  · rw [List.filter_cons_of_neg (by simp [announcement]), List.filter_eq_self.2 hcalls]

section

variable (h : ∀ c ∈ Catalogue.all, (entry c).Tells Catalogue.store c)

include h

theorem unbroken_logLines (o : Options) (ps : List Predicate) :
    ∀ line ∈ logLines entry o ps, Unbroken line.source ∧ Unbroken line.text := by
  have hnames : Catalogue.store.UnbrokenNames := Catalogue.store_orderly.names
  unfold logLines
  rw [List.forall_mem_append]
  refine ⟨unbroken_openingLines o hnames, ?_⟩
  split
  · nofun
  · rw [List.forall_mem_cons]
    refine ⟨⟨(by decide : Unbroken programName), unbroken_announcement _ _⟩, fun line hline => ?_⟩
    obtain ⟨c, hc, p, rfl⟩ := exists_of_mem_tracedCalls hline
    exact ⟨(by decide : Unbroken Engine.source),
      (h c (List.mem_filter.1 hc).1).unbroken_call hnames p⟩

variable (hlogger : logger.Standard time) {setting? : Option String} {r : Report}
  (hr : r.stderr = logger.print (filter setting? o) (logLines entry o ps))

include hlogger hr

theorem errorLines_eq : r.errorLines = r.stderr := by
  refine Lines.ofString_text fun s hs => ?_
  rw [hr, Logger.print, List.mem_mapIdx] at hs
  obtain ⟨n, hn, rfl⟩ := hs
  obtain ⟨hsource, htext⟩ :=
    unbroken_logLines h o ps _ (List.mem_filter.1 (List.getElem_mem hn)).1
  exact hlogger.unbroken_format n hsource htext

/-- The lines of calls are those that were traced and pass the filter. -/
theorem forall₂_traceLines :
    List.Forall₂ (fun line s => ∃ n, s = logger.format n line)
      ((if o.list then [] else tracedCalls entry o (wanted o) (asked ps)).filter
        (logger.passes (filter setting? o))) r.traceLines := by
  rw [traceLines, errorLines_eq h hlogger hr, hr, Logger.print, ← filter_logLines,
    List.filter_comm]
  refine forall₂_filter_mapIdx fun n line hline => isTrace_format_iff hlogger n ?_
  exact (unbroken_logLines h o ps line (List.mem_filter.1 hline).1).2

theorem forall₂_calls (hlist : o.list = false) (hverbosity : 2 ≤ o.verbosity) :
    List.Forall₂ (fun x s => ∃ n, s = (entry x.1).callLine (time n) x.2)
      ((wanted o ×ˢ asked ps).filter fun x =>
        logger.passes (filter setting? o) ((entry x.1).call x.2)) r.traceLines := by
  have hlines := forall₂_traceLines h hlogger hr
  rw [if_neg (by simp [hlist]), tracedCalls_of_le hverbosity, List.filter_map,
    List.forall₂_map_left_iff] at hlines
  have htells : ∀ x ∈ (wanted o ×ˢ asked ps).filter fun x =>
      logger.passes (filter setting? o) ((entry x.1).call x.2),
      (entry x.1).Tells Catalogue.store x.1 := by
    intro x hx
    have hwanted : x.1 ∈ wanted o := (List.pair_mem_product.1 (List.mem_filter.1 hx).1).1
    exact h x.1 (List.mem_filter.1 hwanted).1
  refine ((List.forall₂_and_left _ _).2 ⟨htells, hlines⟩).imp ?_
  rintro x s ⟨hx, n, rfl⟩
  exact ⟨n, hx.format_call Catalogue.store_orderly.names hlogger n x.2⟩

end

/-- How the calls in the log go with the table. -/
structure CallLog (logger : Logger) (time : Nat → String) (setting? : Option String)
    (o : Options) (ps : List Predicate) (entry : Case → Entry) (r : Report) : Prop where
  table : o.list = false → Lines.Prints r.stdout
    (headerLine (asked ps) :: (wanted o).map fun c => (entry c).line c.name (asked ps))
  /-- Unless a filter is set from outside, the cells are told of row by row. -/
  calls : setting? = none → o.list = false → 2 ≤ o.verbosity →
    List.Forall₂ (fun x s => ∃ n, s = (entry x.1).callLine (time n) x.2)
      (wanted o ×ˢ asked ps) r.traceLines
  count : setting? = none → o.list = false → 2 ≤ o.verbosity →
    r.traceLines.length = (wanted o).length * (asked ps).length
  /-- A filter that is set from outside keeps lines back, whatever the verbosity. -/
  passing {setting : String} : setting? = some setting → o.list = false → 2 ≤ o.verbosity →
    List.Forall₂ (fun x s => ∃ n, s = (entry x.1).callLine (time n) x.2)
      ((wanted o ×ˢ asked ps).filter fun x => logger.passes setting ((entry x.1).call x.2))
      r.traceLines
  quiet : o.list = true ∨ o.verbosity < 2 → r.traceLines = []

theorem callLog_of_stderr {setting? : Option String} {r : Report}
    (h : ∀ c ∈ Catalogue.all, (entry c).Tells Catalogue.store c) (hlogger : logger.Standard time)
    (hstdout : r.stdout = Lines.text (lines entry o ps))
    (hstderr : r.stderr = logger.print (filter setting? o) (logLines entry o ps)) :
    CallLog logger time setting? o ps entry r := by
  have hcalls : setting? = none → o.list = false → 2 ≤ o.verbosity →
      List.Forall₂ (fun x s => ∃ n, s = (entry x.1).callLine (time n) x.2)
        (wanted o ×ˢ asked ps) r.traceLines := by
    rintro rfl hlist hverbosity
    have hpasses : ∀ x ∈ wanted o ×ˢ asked ps,
        logger.passes (filter none o) ((entry x.1).call x.2) = true := by
      intro x _
      rw [filter, Option.getD_none, threshold_of_two_le hverbosity, hlogger.passes]
      exact le_rfl
    have hlines := forall₂_calls h hlogger hstderr hlist hverbosity
    rwa [List.filter_eq_self.2 hpasses] at hlines
  refine ⟨fun hlist => ?_, hcalls, fun hsetting hlist hverbosity => ?_, ?_, fun hquiet => ?_⟩
  · rw [hstdout]
    exact prints_table h ps hlist
  · rw [← (hcalls hsetting hlist hverbosity).length_eq, List.length_product]
  · rintro setting rfl hlist hverbosity
    have hlines := forall₂_calls h hlogger hstderr hlist hverbosity
    rwa [filter, Option.getD_some] at hlines
  · have hnone : (if o.list then [] else tracedCalls entry o (wanted o) (asked ps)) = [] := by
      rcases hquiet with hlist | hverbosity
      · rw [if_pos hlist]
      · rw [tracedCalls_of_lt hverbosity, ite_self]
    have hlines := forall₂_traceLines h hlogger hstderr
    rw [hnone, List.filter_nil, List.forall₂_nil_left_iff] at hlines
    exact hlines

/-- With known predicates, the log of a run tells of the very calls that the table shows, and no
other is told of. -/
theorem callLog (hlogger : logger.Standard time) (setting? : Option String)
    (hps : o.predicates = ps.map Predicate.name) :
    ∃ (entry : Case → Entry) (r : Report),
      (∀ c ∈ Catalogue.all, (entry c).Tells Catalogue.store c) ∧
      (ofOptions logger setting? o).Returns r ∧ CallLog logger time setting? o ps entry r := by
  obtain ⟨entry, htells⟩ := exists_entries
  exact ⟨entry, _, htells, returns_ofOptions htells logger setting? hps,
    callLog_of_stderr htells hlogger rfl rfl⟩

def noon : String := "2024-05-01T12:00:00Z"

theorem standard_noon : (Logger.stamped fun _ => noon).Standard fun _ => noon :=
  Logger.stamped_standard (fun _ => (by decide : Unbroken noon))
    fun _ => (by decide : ' ' ∉ noon.toList)

def traced : Options := ⟨["equal?", "eq?", "equal?"], some "str", false, 2⟩

def stringCase : Case := ⟨"strings", .string 19, .string 20⟩

theorem wanted_traced : wanted traced = [stringCase] := by decide +kernel

/-- Two strings that are read alike, asked about three times. -/
theorem callLog_traced :
    ((Logger.stamped fun _ => noon).Standard fun _ => noon) ∧
      traced.predicates = [.equal, .eq, .equal].map Predicate.name ∧
      ∃ r, (ofOptions (Logger.stamped fun _ => noon) none traced).Returns r ∧
        Lines.Prints r.stdout
          ["case                   left                         right                       " ++
            " equal?  eq?     equal? ",
          "strings                \"abc\"                        \"abc\"                       " ++
            " #t      #f      #t     "] ∧
        r.traceLines =
          ["[2024-05-01T12:00:00Z TRACE schemeq::runtime] (equal? \"abc\" \"abc\") => #t",
            "[2024-05-01T12:00:00Z TRACE schemeq::runtime] (eq? \"abc\" \"abc\") => #f",
            "[2024-05-01T12:00:00Z TRACE schemeq::runtime] (equal? \"abc\" \"abc\") => #t"] := by
  have hps : traced.predicates = [Predicate.equal, .eq, .equal].map Predicate.name := rfl
  obtain ⟨entry, r, htells, hreturns, hlog⟩ := callLog standard_noon none hps
  have hall : stringCase ∈ Catalogue.all :=
    (List.mem_filter.1 (wanted_traced ▸ List.mem_singleton_self stringCase)).1
  have hcase : (entry stringCase).Tells Catalogue.store stringCase := htells _ hall
  have hleft : (entry stringCase).left = "\"abc\"" := hcase.left.unique ⟨8, by decide +kernel⟩
  have hright : (entry stringCase).right = "\"abc\"" := hcase.right.unique ⟨8, by decide +kernel⟩
  have heq : (entry stringCase).verdict .eq = false :=
    (hcase.verdict .eq).unique ⟨8, by decide +kernel⟩
  have hequal : (entry stringCase).verdict .equal = true :=
    (hcase.verdict .equal).unique ⟨8, by decide +kernel⟩
  have hrow : (entry stringCase).line "strings" [.equal, .eq, .equal] =
      "strings                \"abc\"                        \"abc\"                       " ++
        " #t      #f      #t     " := by
    simp only [Entry.line, Entry.columns, Entry.cells, List.map_cons, List.map_nil, hleft, hright,
      heq, hequal]
    decide +kernel
  have htable := hlog.table rfl
  have hcalls : List.Forall₂ (fun x s => (entry x.1).callLine noon x.2 = s)
      (wanted traced ×ˢ asked [.equal, .eq, .equal]) r.traceLines := by
    refine (hlog.calls rfl rfl (by decide)).imp ?_
    rintro x s ⟨-, rfl⟩
    rfl
  rw [wanted_traced] at htable hcalls
  refine ⟨standard_noon, hps, r, hreturns, hrow ▸ htable, ?_⟩
  rw [← List.forall₂_map_left_iff, List.forall₂_eq_eq_eq] at hcalls
  rw [← hcalls]
  change [(entry stringCase).callLine noon .equal, (entry stringCase).callLine noon .eq,
    (entry stringCase).callLine noon .equal] = _
  simp only [Entry.callLine, hleft, hright, heq, hequal]
  decide +kernel

end Report

end Sameness
