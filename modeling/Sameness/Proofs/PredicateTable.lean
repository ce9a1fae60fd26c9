import Mathlib.Data.List.Infix
import Sameness.Report
import Sameness.Proofs.CatalogueStore
import Sameness.Proofs.EntryPoints
import Sameness.Proofs.Tracing

/-!
The table of the predicates.

What stands on the line of a case does not depend on what else is asked for, nor on what is logged,
so all tables are made of the same columns and cells. Here these are spelled out, apart from how the
program lays them out.
-/

namespace Sameness

open Lines (Unbroken)

/-! ### Calls -/

theorem Store.returns_write_boolean (st : Store) (b : Bool) :
    (st.write (.boolean b)).Returns (boolText b) :=
  Store.returns_write_leaf (by simp [Value.tag]) (by simp [Value.tag])

namespace Engine

variable {e e' e'' : Engine} {lines lines' : List LogLine}

/-- Calls leave these lines in the log, if they are traced. -/
structure Logs (e e' : Engine) (lines : List LogLine) : Prop where
  tracing : e'.tracing = e.tracing
  log : e'.log.toList = e.log.toList ++ if e.tracing then lines else []

theorem Logs.refl (e : Engine) : e.Logs e [] := ⟨rfl, by simp⟩

theorem Logs.trans (h : e.Logs e' lines) (h' : e'.Logs e'' lines') :
    e.Logs e'' (lines ++ lines') := by
  refine ⟨h'.tracing.trans h.tracing, ?_⟩
  rw [h'.log, h.log, h.tracing]
  split <;> simp

theorem exists_returns_call_predicate (e : Engine) {st : Store} {p : Predicate} {v w : Value}
    {r : Bool} {left right : String} (hr : (st.same p v w).Returns r)
    (hleft : (st.write v).Returns left) (hright : (st.write w).Returns right) :
    ∃ e', (e.call st p.name [v, w]).Returns (.ok (.boolean r), e') ∧
      e.Logs e' [⟨.trace, source, callText (.compare p) [left, right] (boolText r)⟩] := by
  have haccepts : (Builtin.compare p).arity.accepts [v, w].length = true := rfl
  have hrun : ((Builtin.compare p).run st [v, w] (.unlimited e.pending)).Returns
      (.ok (.boolean r), .unlimited e.pending) := by
    rw [Builtin.run_compare, Run.returns_bind]
    exact ⟨r, hr, Run.returns_pure.2 rfl⟩
  have htext : (traceText st (.compare p) [v, w] (.ok (.boolean r))).Returns
      (callText (.compare p) [left, right] (boolText r)) :=
    returns_traceText_iff.2
      ⟨_, _, .cons hleft (.cons hright .nil), st.returns_write_boolean r, rfl⟩
  obtain ⟨lines, hlines, hlog⟩ : ∃ lines : Array LogLine,
      e.TraceLines st (.compare p) [v, w] (.ok (.boolean r)) lines ∧ lines.toList =
        if e.tracing then [⟨.trace, source, callText (.compare p) [left, right] (boolText r)⟩]
        else [] := by
    unfold TraceLines
    split
    · exact ⟨_, ⟨_, htext, rfl⟩, rfl⟩
    · exact ⟨_, rfl, rfl⟩
  rw [show p.name = (Builtin.compare p).name from rfl, call_name]
  exact ⟨_, (returns_callBuiltin_iff haccepts).2 ⟨_, lines, hrun, hlines, rfl⟩, rfl, by simp [hlog]⟩

end Engine

/-! ### Names -/

namespace Predicate

theorem ofName?_eq_none_iff {name : String} :
    ofName? name = none ↔ name ∉ all.map Predicate.name := by
  rw [ofName?, List.find?_eq_none, List.mem_map, not_exists]
  simp only [beq_iff_eq, not_and]

theorem ofName?_name (p : Predicate) : ofName? p.name = some p := by
  cases p <;> decide

/-- Some names are all those of predicates, or one of them is the first that is not. -/
theorem names_cases (names : List String) :
    (∃ ps : List Predicate, names = ps.map Predicate.name) ∨
      ∃ (ps : List Predicate) (unknown : String) (after : List String),
        names = ps.map Predicate.name ++ unknown :: after ∧
          unknown ∉ all.map Predicate.name := by
  induction names with
  | nil => exact .inl ⟨[], rfl⟩
  | cons name names ih =>
    by_cases hname : name ∈ all.map Predicate.name
    · obtain ⟨p, -, rfl⟩ := List.mem_map.1 hname
      rcases ih with ⟨ps, rfl⟩ | ⟨ps, unknown, after, rfl, hunknown⟩
      · exact .inl ⟨p :: ps, rfl⟩
      · exact .inr ⟨p :: ps, unknown, after, rfl, hunknown⟩
    · exact .inr ⟨[], name, names, rfl, hname⟩

theorem find?_names (ps : List Predicate) :
    (ps.map Predicate.name).find? (fun s => (ofName? s).isNone) = none := by
  rw [List.find?_eq_none]
  intro s hs
  obtain ⟨p, -, rfl⟩ := List.mem_map.1 hs
  simp [ofName?_name]

theorem find?_unknown {unknown : String} (h : unknown ∉ all.map Predicate.name)
    (ps : List Predicate) (after : List String) :
    (ps.map Predicate.name ++ unknown :: after).find? (fun s => (ofName? s).isNone) =
      some unknown := by
  rw [List.find?_append, find?_names, Option.none_or, List.find?_cons_of_pos]
  rw [ofName?_eq_none_iff.2 h]
  rfl

end Predicate

/-! ### Lines -/

namespace Report

variable {o : Options} {st : Store} {c : Case} {cs : List Case} {ps qs : List Predicate}

/-- A text, and blanks behind it as far as its column goes. -/
def padded (width : Nat) (s : String) : String := String.ofList (s.toList.rightpad width ' ')

theorem padRight_eq (width : Nat) (s : String) : padRight width s = padded width s := by
  rw [padRight, padded, List.rightpad, String.ofList_append, String.ofList_toList,
    String.length_toList]

theorem unbroken_padded {s : String} (width : Nat) (h : Unbroken s) :
    Unbroken (padded width s) := by
  rw [padded, Lines.unbroken_ofList, List.rightpad, List.forall_mem_append]
  refine ⟨h, fun c hc => ?_⟩
  rw [List.eq_of_mem_replicate hc]
  decide

/-- The cell of a predicate in the header. -/
def titleCell : Predicate → String
  | .eq => " eq?    "
  | .eqv => " eqv?   "
  | .equal => " equal? "

theorem cell_name (p : Predicate) : cell p.name = titleCell p := by
  cases p <;> decide

def verdictCell : Bool → String
  | true => " #t     "
  | false => " #f     "

theorem cell_boolText (b : Bool) : cell (boolText b) = verdictCell b := by
  cases b <;> decide

def headerLine (ps : List Predicate) : String :=
  "case                   left                         right                       " ++
    String.join (ps.map titleCell)

theorem header_names (ps : List Predicate) :
    header (ps.map Predicate.name) = headerLine ps ++ "\n" := by
  have hcolumns : columns "case" "left" "right" =
      "case                   left                         right                       " := by
    rfl
  have hcells : (ps.map Predicate.name).map cell = ps.map titleCell := by
    rw [List.map_map]
    exact List.map_congr_left fun p _ => cell_name p
  unfold header headerLine
  rw [hcells, hcolumns]

theorem unbroken_headerLine (ps : List Predicate) : Unbroken (headerLine ps) := by
  refine Lines.unbroken_append.2 ⟨by decide, Lines.unbroken_join fun s hs => ?_⟩
  obtain ⟨p, -, rfl⟩ := List.mem_map.1 hs
  cases p <;> decide

/-- What there is to tell of a case: both sides as they are written, and the verdicts. -/
structure Entry where
  left : String
  right : String
  verdict : Predicate → Bool

namespace Entry

/-- The entry is true of the case. -/
structure Tells (e : Entry) (st : Store) (c : Case) : Prop where
  left : (st.write c.left).Returns e.left
  right : (st.write c.right).Returns e.right
  verdict (p : Predicate) : (st.same p c.left c.right).Returns (e.verdict p)

/-- The name of the case and both sides, in columns of 22, 28 and 28 characters. -/
def columns (e : Entry) (name : String) : String :=
  padded 22 name ++ " " ++ padded 28 e.left ++ " " ++ padded 28 e.right

def cells (e : Entry) (ps : List Predicate) : String :=
  String.join (ps.map fun p => verdictCell (e.verdict p))

def line (e : Entry) (name : String) (ps : List Predicate) : String := e.columns name ++ e.cells ps

/-- How the log tells of the call behind a cell. -/
def call (e : Entry) (p : Predicate) : LogLine :=
  ⟨.trace, Engine.source,
    Engine.callText (.compare p) [e.left, e.right] (boolText (e.verdict p))⟩

variable {e : Entry}

theorem columns_eq (e : Entry) (name : String) :
    Report.columns name e.left e.right = e.columns name := by
  simp only [Report.columns, columns, padRight_eq]

theorem cells_append (e : Entry) (ps qs : List Predicate) :
    e.cells (ps ++ qs) = e.cells ps ++ e.cells qs := by
  simp [cells]

theorem Tells.unbroken_line (h : e.Tells st c) (hst : st.UnbrokenNames) (hname : Unbroken c.name)
    (ps : List Predicate) : Unbroken (e.line c.name ps) := by
  have hcolumns : Unbroken (e.columns c.name) := by
    simp only [columns, Lines.unbroken_append]
    exact ⟨⟨⟨⟨unbroken_padded 22 hname, by decide⟩, unbroken_padded 28 (hst.write h.left)⟩,
      by decide⟩, unbroken_padded 28 (hst.write h.right)⟩
  refine Lines.unbroken_append.2 ⟨hcolumns, Lines.unbroken_join fun s hs => ?_⟩
  obtain ⟨p, -, rfl⟩ := List.mem_map.1 hs
  cases e.verdict p <;> decide

end Entry

theorem exists_tells (hst : ∀ v, st.Acyclic v) (c : Case) : ∃ e : Entry, e.Tells st c := by
  obtain ⟨left, hleft⟩ := (hst c.left).exists_returns_print .write
  obtain ⟨right, hright⟩ := (hst c.right).exists_returns_print .write
  choose verdict hverdict using fun p => (hst c.left).exists_returns_same p c.right
  exact ⟨⟨left, right, verdict⟩, hleft, hright, hverdict⟩

theorem exists_entries :
    ∃ entry : Case → Entry, ∀ c ∈ Catalogue.all, (entry c).Tells Catalogue.store c := by
  choose entry hentry using exists_tells Catalogue.acyclic
  exact ⟨entry, fun c _ => hentry c⟩

/-! ### Printing -/

theorem exists_returns_printCells {e : Entry} (h : e.Tells st c) (ps : List Predicate)
    (t : Progress) :
    ∃ engine, (printCells st c (ps.map Predicate.name) t).Returns
        { t with stdout := t.stdout ++ e.cells ps ++ "\n", engine } ∧
      t.engine.Logs engine (ps.map e.call) := by
  induction ps generalizing t with
  | nil => exact ⟨t.engine, Run.returns_pure.2 (by simp [Entry.cells]), .refl _⟩
  | cons p ps ih =>
    obtain ⟨engine, hcall, hlog⟩ :=
      t.engine.exists_returns_call_predicate (h.verdict p) h.left h.right
    obtain ⟨engine', hcells, hlog'⟩ :=
      ih { t with engine, stdout := t.stdout ++ cell (boolText (e.verdict p)) }
    have hjoin : t.stdout ++ cell (boolText (e.verdict p)) ++ e.cells ps =
        t.stdout ++ e.cells (p :: ps) := by
      simp [Entry.cells, cell_boolText, String.append_assoc]
    rw [hjoin] at hcells
    refine ⟨engine', ?_, hlog.trans hlog'⟩
    rw [List.map_cons, printCells, Run.returns_bind]
    refine ⟨_, hcall, ?_⟩
    rw [Run.returns_bind]
    exact ⟨_, st.returns_write_boolean (e.verdict p), hcells⟩

theorem exists_returns_printCases {entry : Case → Entry} (h : ∀ c ∈ cs, (entry c).Tells st c)
    (ps : List Predicate) (t : Progress) (ht : t.failure = none) :
    ∃ engine, (printCases st (ps.map Predicate.name) cs t).Returns
        ⟨t.stdout ++ Lines.text (cs.map fun c => (entry c).line c.name ps), engine, none⟩ ∧
      t.engine.Logs engine (cs.flatMap fun c => ps.map (entry c).call) := by
  induction cs generalizing t with
  | nil =>
    refine ⟨t.engine, Run.returns_pure.2 ?_, .refl _⟩
    simp [Lines.text, ← ht]
  | cons c cs ih =>
    have hc : (entry c).Tells st c := h c List.mem_cons_self
    obtain ⟨engine, hcells, hlog⟩ := exists_returns_printCells hc ps
      { t with stdout := t.stdout ++ (entry c).columns c.name }
    let t' : Progress := { t with
      stdout := t.stdout ++ (entry c).columns c.name ++ (entry c).cells ps ++ "\n"
      engine }
    obtain ⟨engine', hrest, hlog'⟩ := ih (fun d hd => h d (List.mem_cons_of_mem c hd)) t' ht
    have htext : t'.stdout ++ Lines.text (cs.map fun c => (entry c).line c.name ps) =
        t.stdout ++ Lines.text ((c :: cs).map fun c => (entry c).line c.name ps) := by
      simp [t', Lines.text, Entry.line, String.append_assoc]
    rw [htext] at hrest
    refine ⟨engine', ?_, hlog.trans hlog'⟩
    simp only [printCases, Run.returns_bind]
    refine ⟨_, hc.left, _, hc.right, t', ?_, ?_⟩
    · rw [Entry.columns_eq]
      exact hcells
    · rw [show t'.failure = none from ht]
      exact hrest

/-! ### Selection -/

theorem occursIn_iff {part cs : List Char} : occursIn part cs = true ↔ part <:+: cs := by
  induction cs with
  | nil => simp [occursIn]
  | cons c cs ih =>
    rw [occursIn, Bool.or_eq_true, List.isPrefixOf_iff_prefix, ih, List.infix_cons_iff]

/-- The text that is asked for, if any, is somewhere in the name of the case. -/
def Wanted (o : Options) (c : Case) : Prop :=
  ∀ part, o.case? = some part → part.toList <:+: c.name.toList

theorem selected_iff : selected o c = true ↔ Wanted o c := by
  unfold selected Wanted
  cases o.case? with
  | none => simp
  | some part => simp [occursIn_iff]

instance (o : Options) : DecidablePred (Wanted o) := fun _ => decidable_of_iff _ selected_iff

def wanted (o : Options) : List Case := Catalogue.all.filter (Wanted o)

theorem filter_selected (o : Options) : Catalogue.all.filter (selected o) = wanted o :=
  List.filter_congr fun c _ => by rw [Bool.eq_iff_iff, selected_iff, decide_eq_true_iff]

theorem wanted_of_none (h : o.case? = none) : wanted o = Catalogue.all := by
  rw [wanted, List.filter_eq_self]
  intro c _
  simp [Wanted, h]

/-- Without a choice all predicates are asked for. -/
def asked (ps : List Predicate) : List Predicate := if ps.isEmpty then Predicate.all else ps

theorem chosen_eq (h : o.predicates = ps.map Predicate.name) :
    chosen o = (asked ps).map Predicate.name := by
  rw [chosen, h, asked]
  cases ps <;> rfl

/-! ### Reports -/

theorem text_names (cs : List Case) :
    Lines.text (cs.map Case.name) = String.join (cs.map fun c => c.name ++ "\n") := by
  rw [Lines.text, List.map_map]
  rfl

theorem text_header (ps : List Predicate) (lines : List String) :
    header (ps.map Predicate.name) ++ Lines.text lines = Lines.text (headerLine ps :: lines) := by
  rw [header_names, Lines.text, Lines.text, List.map_cons, String.join_cons]

/-- The calls of a table, row by row, if they are traced. -/
def tracedCalls (entry : Case → Entry) (o : Options) (cs : List Case) (ps : List Predicate) :
    List LogLine :=
  if 2 ≤ o.verbosity then cs.flatMap fun c => ps.map (entry c).call else []

section

variable {logger : Logger} {setting? : Option String} {passing : String}

theorem returns_list (hlist : o.list = true) (st : Store) (cs : List Case) :
    (ofSelection logger passing o st cs).Returns
      ⟨0, Lines.text (cs.map Case.name), logger.print passing (openingLines o st)⟩ := by
  simp only [text_names, ofSelection, if_pos hlist]
  exact Run.returns_pure.2 rfl

theorem returns_table {entry : Case → Entry} (h : ∀ c ∈ cs, (entry c).Tells st c)
    (hps : o.predicates = ps.map Predicate.name) (hlist : ¬o.list = true) :
    (ofSelection logger passing o st cs).Returns
      ⟨0, Lines.text (headerLine (asked ps) :: cs.map fun c => (entry c).line c.name (asked ps)),
        logger.print passing (openingLines o st ++
          announcement cs ((asked ps).map Predicate.name) ::
            tracedCalls entry o cs (asked ps))⟩ := by
  let created := ((Engine.create .stdout (2 ≤ o.verbosity)).takeLog).2
  obtain ⟨engine, hcases, hlog⟩ := exists_returns_printCases h (asked ps)
    ⟨header ((asked ps).map Predicate.name), created, none⟩ rfl
  have hcalls : engine.log.toList = tracedCalls entry o cs (asked ps) := by
    rw [hlog.log, tracedCalls]
    simp [created, Engine.takeLog, Engine.create]
  rw [text_header] at hcases
  simp only [ofSelection, if_neg hlist, chosen_eq hps]
  refine Run.returns_bind.2 ⟨_, hcases, Run.returns_pure.2 ?_⟩
  rw [hcalls]

theorem ofOptions_known (hps : o.predicates = ps.map Predicate.name) :
    ofOptions logger setting? o =
      ofSelection logger (filter setting? o) o Catalogue.store (wanted o) := by
  rw [ofOptions, hps, Predicate.find?_names, Catalogue.run_cases, ← filter_selected]

theorem ofOptions_unknown {unknown : String} {after : List String}
    (h : unknown ∉ Predicate.all.map Predicate.name)
    (hnames : o.predicates = ps.map Predicate.name ++ unknown :: after) :
    ofOptions logger setting? o = pure (unknownPredicate unknown) := by
  rw [ofOptions, hnames, Predicate.find?_unknown h]

end

/-- The lines that are printed when all predicates are known. -/
def lines (entry : Case → Entry) (o : Options) (ps : List Predicate) : List String :=
  if o.list then (wanted o).map Case.name
  else headerLine (asked ps) :: (wanted o).map fun c => (entry c).line c.name (asked ps)

/-- What there is to log then. -/
def logLines (entry : Case → Entry) (o : Options) (ps : List Predicate) : List LogLine :=
  openingLines o Catalogue.store ++ if o.list then []
    else announcement (wanted o) ((asked ps).map Predicate.name) ::
      tracedCalls entry o (wanted o) (asked ps)

section

variable {entry : Case → Entry} (h : ∀ c ∈ Catalogue.all, (entry c).Tells Catalogue.store c)

include h

theorem returns_ofOptions (logger : Logger) (setting? : Option String)
    (hps : o.predicates = ps.map Predicate.name) :
    (ofOptions logger setting? o).Returns ⟨0, Lines.text (lines entry o ps),
      logger.print (filter setting? o) (logLines entry o ps)⟩ := by
  rw [ofOptions_known hps, lines, logLines]
  have hwanted : ∀ c ∈ wanted o, (entry c).Tells Catalogue.store c :=
    fun c hc => h c (List.mem_filter.1 hc).1
  by_cases hlist : o.list = true
  · rw [if_pos hlist, if_pos hlist, List.append_nil]
    exact returns_list hlist Catalogue.store (wanted o)
  · rw [if_neg hlist, if_neg hlist]
    exact returns_table hwanted hps hlist

theorem unbroken_lines (o : Options) (ps : List Predicate) :
    ∀ s ∈ lines entry o ps, Unbroken s := by
  have hwanted : ∀ {c}, c ∈ wanted o → c ∈ Catalogue.all := fun hc => (List.mem_filter.1 hc).1
  unfold lines
  split
  · intro s hs
    obtain ⟨c, hc, rfl⟩ := List.mem_map.1 hs
    exact Catalogue.unbroken_name (hwanted hc)
  · rw [List.forall_mem_cons]
    refine ⟨unbroken_headerLine _, fun s hs => ?_⟩
    obtain ⟨c, hc, rfl⟩ := List.mem_map.1 hs
    exact (h c (hwanted hc)).unbroken_line Catalogue.store_orderly.names
      (Catalogue.unbroken_name (hwanted hc)) _

theorem prints_lines (o : Options) (ps : List Predicate) :
    Lines.Prints (Lines.text (lines entry o ps)) (lines entry o ps) :=
  Lines.prints_text (unbroken_lines h o ps)

theorem prints_table (ps : List Predicate) (hlist : o.list = false) :
    Lines.Prints (Lines.text (lines entry o ps))
      (headerLine (asked ps) :: (wanted o).map fun c => (entry c).line c.name (asked ps)) := by
  have hlines := prints_lines h o ps
  rwa [lines, if_neg (by simp [hlist])] at hlines ⊢

end

/-- How the reports of all command lines hang together, with what there is to tell of each case. -/
structure TableLaw (run : Options → Report) (entry : Case → Entry) : Prop where
  /-- The first name that is none of a predicate's is refused, whatever else is asked for. -/
  unknown {o : Options} {ps : List Predicate} {name : String} {after : List String} :
    o.predicates = ps.map Predicate.name ++ name :: after →
      name ∉ Predicate.all.map Predicate.name →
        (run o).exit = 2 ∧ (run o).stdout = "" ∧
          (run o).stderr = ["Unknown predicate '" ++ name ++
            "', expected one of [\"eq?\", \"eqv?\", \"equal?\"]"]
  exit_zero {o : Options} {ps : List Predicate} :
    o.predicates = ps.map Predicate.name → (run o).exit = 0
  exit_ne_one (o : Options) : (run o).exit ≠ 1
  verbosity {o : Options} {ps : List Predicate} (n : Nat) :
    o.predicates = ps.map Predicate.name →
      (run { o with verbosity := n }).stdout = (run o).stdout
  list {o : Options} {ps : List Predicate} :
    o.predicates = ps.map Predicate.name → o.list = true →
      Lines.Prints (run o).stdout ((wanted o).map Case.name)
  table {o : Options} {ps : List Predicate} :
    o.predicates = ps.map Predicate.name → o.list = false →
      Lines.Prints (run o).stdout
        (headerLine (asked ps) :: (wanted o).map fun c => (entry c).line c.name (asked ps))
  /-- To ask for some cases leaves lines out and changes none. -/
  filtered {o : Options} {ps : List Predicate} :
    o.predicates = ps.map Predicate.name → o.list = false →
      ∃ line : Case → String,
        Lines.Prints (run { o with case? := none }).stdout
          (headerLine (asked ps) :: Catalogue.all.map line) ∧
        Lines.Prints (run o).stdout (headerLine (asked ps) :: (wanted o).map line)
  /-- More predicates only make the lines longer. -/
  table_append {o : Options} {ps qs : List Predicate} :
    o.predicates = (ps ++ qs).map Predicate.name → ps ≠ [] → o.list = false →
      Lines.Prints (run o).stdout (headerLine (ps ++ qs) ::
        (wanted o).map fun c => (entry c).line c.name ps ++ (entry c).cells qs)

section

variable {logger : Logger} {setting? : Option String} {run : Options → Report}
  {entry : Case → Entry} (hrun : ∀ o, (ofOptions logger setting? o).Returns (run o))

include hrun

theorem run_unknown {name : String} {after : List String}
    (hname : name ∉ Predicate.all.map Predicate.name)
    (hnames : o.predicates = ps.map Predicate.name ++ name :: after) :
    run o = unknownPredicate name := by
  have hreturns := hrun o
  rw [ofOptions_unknown hname hnames, Run.returns_pure] at hreturns
  exact hreturns.symm

variable (h : ∀ c ∈ Catalogue.all, (entry c).Tells Catalogue.store c)

include h

theorem run_known (hps : o.predicates = ps.map Predicate.name) :
    (run o).exit = 0 ∧ (run o).stdout = Lines.text (lines entry o ps) := by
  rw [(hrun o).unique (returns_ofOptions h logger setting? hps)]
  exact ⟨rfl, rfl⟩

theorem run_prints_table (hps : o.predicates = ps.map Predicate.name) (hlist : o.list = false) :
    Lines.Prints (run o).stdout
      (headerLine (asked ps) :: (wanted o).map fun c => (entry c).line c.name (asked ps)) := by
  rw [(run_known hrun h hps).2]
  exact prints_table h ps hlist

theorem tableLaw : TableLaw run entry where
  unknown hnames hname := by
    have hnamesText : namesText (Predicate.all.map Predicate.name) =
        "[\"eq?\", \"eqv?\", \"equal?\"]" := by
      decide
    rw [run_unknown hrun hname hnames]
    refine ⟨rfl, rfl, ?_⟩
    rw [unknownPredicate, hnamesText, String.append_assoc]
    rfl
  exit_zero hps := (run_known hrun h hps).1
  exit_ne_one o := by
    rcases Predicate.names_cases o.predicates with ⟨ps, hps⟩ | ⟨ps, name, after, hnames, hname⟩
    · rw [(run_known hrun h hps).1]
      decide
    · rw [run_unknown hrun hname hnames]
      exact (by decide : 2 ≠ 1)
  verbosity {o ps} n hps := by
    let louder : Options := { o with verbosity := n }
    have hlines : lines entry louder ps = lines entry o ps := rfl
    have hlouder : louder.predicates = ps.map Predicate.name := hps
    rw [(run_known hrun h hlouder).2, hlines, (run_known hrun h hps).2]
  list {o ps} hps hlist := by
    have hlines := prints_lines h o ps
    rw [(run_known hrun h hps).2]
    rwa [lines, if_pos hlist] at hlines ⊢
  table := run_prints_table hrun h
  filtered {o ps} hps hlist := by
    let unfiltered : Options := { o with case? := none }
    have hall : wanted unfiltered = Catalogue.all := wanted_of_none rfl
    have hlines := run_prints_table (o := unfiltered) hrun h hps hlist
    rw [hall] at hlines
    exact ⟨_, hlines, run_prints_table hrun h hps hlist⟩
  table_append {o ps qs} hps hne hlist := by
    have hasked : asked (ps ++ qs) = ps ++ qs := by simp [asked, hne]
    have hline : ∀ c, (entry c).line c.name (ps ++ qs) =
        (entry c).line c.name ps ++ (entry c).cells qs := by
      intro c
      rw [Entry.line, Entry.line, Entry.cells_append, String.append_assoc]
    have hlines := run_prints_table hrun h hps hlist
    rw [hasked] at hlines
    simpa only [hline] using hlines

end

/-- Whatever is asked for leads to a report, and all the reports are made of the same entries, which
are true of their cases. What is logged, and how, changes neither the exit code nor the table. -/
theorem predicateTable :
    ∃ (run : Logger → Option String → Options → Report) (entry : Case → Entry),
      (∀ logger setting? o, (ofOptions logger setting? o).Returns (run logger setting? o)) ∧
      (∀ c ∈ Catalogue.all, (entry c).Tells Catalogue.store c) ∧
      (∀ logger setting?, TableLaw (run logger setting?) entry) ∧
      ∀ logger logger' setting? setting?' o,
        (run logger setting? o).exit = (run logger' setting?' o).exit ∧
          (run logger setting? o).stdout = (run logger' setting?' o).stdout := by
  obtain ⟨entry, htells⟩ := exists_entries
  have hends : ∀ logger setting? o, ∃ r, (ofOptions logger setting? o).Returns r := by
    intro logger setting? o
    rcases Predicate.names_cases o.predicates with ⟨ps, hps⟩ | ⟨ps, name, after, hnames, hname⟩
    · exact ⟨_, returns_ofOptions htells logger setting? hps⟩
    · exact ⟨_, by rw [ofOptions_unknown hname hnames, Run.returns_pure]⟩
  choose run hrun using hends
  have hlaw : ∀ logger setting?, TableLaw (run logger setting?) entry :=
    fun logger setting? => tableLaw (hrun logger setting?) htells
  refine ⟨run, entry, hrun, htells, hlaw, ?_⟩
  intro logger logger' setting? setting?' o
  rcases Predicate.names_cases o.predicates with ⟨ps, hps⟩ | ⟨ps, name, after, hnames, hname⟩
  · obtain ⟨hexit, hstdout⟩ := run_known (hrun logger setting?) htells hps
    obtain ⟨hexit', hstdout'⟩ := run_known (hrun logger' setting?') htells hps
    exact ⟨hexit.trans hexit'.symm, hstdout.trans hstdout'.symm⟩
  · rw [run_unknown (hrun logger setting?) hname hnames,
      run_unknown (hrun logger' setting?') hname hnames]
    exact ⟨rfl, rfl⟩

def zeros : Options := ⟨["equal?", "eq?"], some "zero", false, 0⟩

def zeroCase : Case := ⟨"signed-zeros", Catalogue.number 0, .number Catalogue.negativeZero⟩

theorem wanted_zeros : wanted zeros = [zeroCase] := by decide +kernel

/-- The two zeros are told apart by one of the two predicates. -/
theorem predicateTable_zeros :
    ∃ run : Logger → Option String → Options → Report,
      (∀ logger setting? o, (ofOptions logger setting? o).Returns (run logger setting? o)) ∧
      ∀ logger setting?, (run logger setting? zeros).exit = 0 ∧
        Lines.Prints (run logger setting? zeros).stdout
          ["case                   left                         right                       " ++
            " equal?  eq?    ",
          "signed-zeros           0                            -0.0                        " ++
            " #t      #f     "] := by
  obtain ⟨run, entry, hrun, htells, hlaw, -⟩ := predicateTable
  have hps : zeros.predicates = [Predicate.equal, .eq].map Predicate.name := rfl
  have hall : zeroCase ∈ Catalogue.all :=
    (List.mem_filter.1 (wanted_zeros ▸ List.mem_singleton_self zeroCase)).1
  have hcase : (entry zeroCase).Tells Catalogue.store zeroCase := htells _ hall
  have hleft : (entry zeroCase).left = "0" := hcase.left.unique ⟨8, by decide +kernel⟩
  have hright : (entry zeroCase).right = "-0.0" := hcase.right.unique ⟨8, by decide +kernel⟩
  have hequal : (entry zeroCase).verdict .equal = true :=
    (hcase.verdict .equal).unique ⟨8, by decide +kernel⟩
  have heq : (entry zeroCase).verdict .eq = false :=
    (hcase.verdict .eq).unique ⟨8, by decide +kernel⟩
  refine ⟨run, hrun, fun logger setting? => ⟨(hlaw logger setting?).exit_zero hps, ?_⟩⟩
  have hrow : (entry zeroCase).line "signed-zeros" [.equal, .eq] =
      "signed-zeros           0                            -0.0                        " ++
        " #t      #f     " := by
    simp only [Entry.line, Entry.columns, Entry.cells, List.map_cons, List.map_nil, hleft, hright,
      hequal, heq]
    decide +kernel
  have hlines := (hlaw logger setting?).table hps rfl
  rw [wanted_zeros] at hlines
  exact hrow ▸ hlines

end Report

end Sameness
