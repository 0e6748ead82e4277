import Sylar.Log.Define
import Sylar.Yaml.Node
import Mathlib.Data.List.Forall2

/-!
# Reading and writing log configurations

The two `LexicalCast`s between `std::set<LogDefine>` and YAML text.  The writer
leaves out what has its default value, and the reader fills it in again, except
that it never looks at the level of an appender.
-/

namespace Sylar.Log

open Foundation Yaml

/-! ## The reader -/

section Reader

variable (y : YamlCpp)

/-- `n[key].as<std::string>()` where it is defined. -/
def stringOr (n : Node) (key default : String) : Except Exception String := do
  match ← n.get key with
  | none => .ok default
  | some v => y.asString v

/-- One appender.  Without a type or a file, or with another type, it is
skipped. -/
def decodeAppender (a : Node) : Except Exception (Option LogAppenderDefine) := do
  match ← a.get "type" with
  | none => .ok none
  | some t =>
      let type ← y.asString t
      if type = "FileLogAppender" then
        match ← a.get "file" with
        | none => .ok none
        | some f =>
            let file ← y.asString f
            let formatter ← stringOr y a "formatter" ""
            .ok (some { type := 1, file, formatter })
      else if type = "StdoutLogAppender" then
        let formatter ← stringOr y a "formatter" ""
        .ok (some { type := 2, formatter })
      else .ok none

/-- One round of the loop over `n["appenders"]`. -/
def readAppender (lads : List LogAppenderDefine) (a : Option Node) :
    Except Exception (List LogAppenderDefine) := do
  match ← decodeAppender y (a.getD .null) with
  | none => .ok lads
  | some lad => .ok (lads ++ [lad])

/-- The loop over `n["appenders"]`. -/
def decodeAppenders (n : Node) : Except Exception (List LogAppenderDefine) :=
  (List.range n.size).foldlM (fun lads x ↦ do
    let a ← n.index y.asSize x
    readAppender y lads a) []

/-- One logger.  Without a name it is skipped. -/
def decodeDefine (n : Node) : Except Exception (Option LogDefine) := do
  match ← n.get "name" with
  | none => .ok none
  | some v =>
      let name ← y.asString v
      let level ← stringOr y n "level" ""
      let formatter ← stringOr y n "formatter" ""
      match ← n.get "appenders" with
      | none => .ok (some { name, level := .FromString level, formatter })
      | some l =>
          let appenders ← decodeAppenders y l
          .ok (some { name, level := .FromString level, formatter, appenders })

/-- One round of the loop over the document. -/
def readDefine (m_set : LogDefines) (n : Option Node) : Except Exception LogDefines := do
  match ← decodeDefine y (n.getD .null) with
  | none => .ok m_set
  | some ld => .ok (m_set.insert ld)

/-- The loop over the document. -/
def LogDefines.decode (node : Node) : Except Exception LogDefines :=
  (List.range node.size).foldlM (fun m_set i ↦ do
    let n ← node.index y.asSize i
    readDefine y m_set n) Keyed.empty

/-- `LexicalCast<std::string, std::set<LogDefine>>`. -/
def LogDefines.fromString (v : String) : Except Exception LogDefines := do
  let node ← y.load v
  LogDefines.decode y node

end Reader

/-! ## The writer -/

def encodeAppender (a : LogAppenderDefine) : Except Exception Node := do
  let na ← (if a.type = 1 then do
      let na ← Node.null.set "type" (.scalar "FileLogAppender")
      na.set "file" (.scalar a.file)
    else if a.type = 2 then Node.null.set "type" (.scalar "StdoutLogAppender")
    else .ok .null)
  let na ← (if a.level ≠ .UNKNOW then na.set "level" (.scalar a.level.ToString) else .ok na)
  if a.formatter ≠ "" then na.set "formatter" (.scalar a.formatter) else .ok na

def encodeDefine (i : LogDefine) : Except Exception Node := do
  let n ← Node.null.set "name" (.scalar i.name)
  let n ← (if i.level ≠ .UNKNOW then n.set "level" (.scalar i.level.ToString) else .ok n)
  let n ← (if i.formatter ≠ "" then n.set "formatter" (.scalar i.formatter) else .ok n)
  i.appenders.foldlM (fun n a ↦ do
    let na ← encodeAppender a
    n.pushAt "appenders" na) n

def LogDefines.encode (v : LogDefines) : Except Exception Node :=
  v.toList.foldlM (fun node i ↦ do
    let n ← encodeDefine i
    node.push_back n) .null

/-- `LexicalCast<std::set<LogDefine>, std::string>`. -/
def LogDefines.toString (y : YamlCpp) (v : LogDefines) : Except Exception String := do
  let node ← v.encode
  .ok (y.emit node)

/-! ## What is read -/

variable {y : YamlCpp} {n : Node} {a : LogAppenderDefine} {i : LogDefine} {s : LogDefines}

/-- An appender as it is read: of one of the two types, and without a level. -/
def LogAppenderDefine.Read (a : LogAppenderDefine) : Prop :=
  (a.type = 1 ∨ a.type = 2) ∧ a.level = .UNKNOW

/-- A configuration as it is read. -/
def LogDefines.Read (s : LogDefines) : Prop :=
  ∀ i ∈ s, i.level.Named ∧ ∀ a ∈ i.appenders, a.Read

theorem LogDefines.Read.typed (h : s.Read) : s.Typed := fun i hi a ha ↦ ((h i hi).2 a ha).1

theorem decodeAppender_read {lad : LogAppenderDefine}
    (h : decodeAppender y n = .ok (some lad)) : lad.Read := by
  unfold decodeAppender at h
  rw [Except.bind_ok_iff] at h
  obtain ⟨t, _, h⟩ := h
  cases t with
  | none => cases h
  | some t =>
      simp only [Except.bind_ok_iff] at h
      obtain ⟨type, _, h⟩ := h
      split at h
      · rw [Except.bind_ok_iff] at h
        obtain ⟨f, _, h⟩ := h
        cases f with
        | none => cases h
        | some f =>
            simp only [Except.bind_ok_iff] at h
            obtain ⟨_, _, _, _, h⟩ := h
            cases h
            exact ⟨.inl rfl, rfl⟩
      · split at h
        · rw [Except.bind_ok_iff] at h
          obtain ⟨_, _, h⟩ := h
          cases h
          exact ⟨.inr rfl, rfl⟩
        · cases h

theorem decodeAppenders_read {lads : List LogAppenderDefine}
    (h : decodeAppenders y n = .ok lads) : ∀ a ∈ lads, a.Read := by
  refine foldlM_invariant (I := fun lads : List LogAppenderDefine ↦ ∀ a ∈ lads, a.Read)
    (fun lads x lads' _ hI hx ↦ ?_) (fun _ h ↦ absurd h List.not_mem_nil) h
  simp only [readAppender, Except.bind_ok_iff] at hx
  obtain ⟨a, _, lad, hlad, hx⟩ := hx
  cases lad with
  | none =>
      cases hx
      exact hI
  | some lad =>
      cases hx
      intro b hb
      rcases List.mem_append.mp hb with hb | hb
      · exact hI b hb
      · rw [List.mem_singleton.mp hb]
        exact decodeAppender_read hlad

theorem decodeDefine_read (h : decodeDefine y n = .ok (some i)) :
    i.level.Named ∧ ∀ a ∈ i.appenders, a.Read := by
  unfold decodeDefine at h
  rw [Except.bind_ok_iff] at h
  obtain ⟨v, _, h⟩ := h
  cases v with
  | none => cases h
  | some v =>
      simp only [Except.bind_ok_iff] at h
      obtain ⟨name, _, level, _, formatter, _, l, _, h⟩ := h
      cases l with
      | none =>
          cases h
          exact ⟨Level.fromString_named level, fun _ h ↦ absurd h List.not_mem_nil⟩
      | some l =>
          simp only [Except.bind_ok_iff] at h
          obtain ⟨lads, hlads, h⟩ := h
          cases h
          exact ⟨Level.fromString_named level, decodeAppenders_read hlads⟩

/-- Only enumerators and the two kinds of appenders are ever read. -/
theorem LogDefines.fromString_read {v : String} (h : LogDefines.fromString y v = .ok s) :
    s.Read := by
  unfold LogDefines.fromString at h
  rw [Except.bind_ok_iff] at h
  obtain ⟨node, _, h⟩ := h
  refine foldlM_invariant (I := LogDefines.Read) (fun s x s' _ hI hx ↦ ?_)
    (fun _ h ↦ absurd h List.not_mem_nil) h
  simp only [readDefine, Except.bind_ok_iff] at hx
  obtain ⟨n, _, ld, hld, hx⟩ := hx
  cases ld with
  | none =>
      cases hx
      exact hI
  | some ld =>
      cases hx
      intro i hi
      rcases Keyed.mem_place hi with rfl | hi
      · exact decodeDefine_read hld
      · exact hI i hi

/-! ## What is written -/

/-- The fields written for the kind of an appender. -/
def LogAppenderDefine.kindFields (a : LogAppenderDefine) : String → Option Node :=
  if a.type = 1 then
    Function.update (Function.update (fun _ ↦ none) "type" (some (.scalar "FileLogAppender")))
      "file" (some (.scalar a.file))
  else if a.type = 2 then
    Function.update (fun _ ↦ none) "type" (some (.scalar "StdoutLogAppender"))
  else fun _ ↦ none

/-- What is written for a level. -/
def levelField (level : Level) : Option Node :=
  if level ≠ .UNKNOW then some (.scalar level.ToString) else none

/-- What is written for a pattern. -/
def formatterField (formatter : String) : Option Node :=
  if formatter ≠ "" then some (.scalar formatter) else none

/-- The fields of the node written for an appender. -/
def LogAppenderDefine.fields (a : LogAppenderDefine) : String → Option Node :=
  Function.update (Function.update a.kindFields "level" (levelField a.level))
    "formatter" (formatterField a.formatter)

/-- The fields of the node written for a logger, whose appenders are the nodes
`ns`. -/
def LogDefine.fields (i : LogDefine) (ns : List Node) : String → Option Node :=
  Function.update (Function.update (Function.update (Function.update (fun _ ↦ none)
    "name" (some (.scalar i.name))) "level" (levelField i.level))
    "formatter" (formatterField i.formatter)) "appenders" (Node.listed ns)

theorem kindFields_none (a : LogAppenderDefine) :
    a.kindFields "level" = none ∧ a.kindFields "formatter" = none := by
  unfold LogAppenderDefine.kindFields
  split
  · simp
  · split <;> simp

theorem encodeAppender_reads (a : LogAppenderDefine) :
    ∃ na, encodeAppender a = .ok na ∧ na.Reads a.fields := by
  obtain ⟨n₁, h₁, hr₁⟩ : ∃ n, (if a.type = 1 then do
        let na ← Node.null.set "type" (.scalar "FileLogAppender")
        na.set "file" (.scalar a.file)
      else if a.type = 2 then Node.null.set "type" (.scalar "StdoutLogAppender")
      else .ok .null) = .ok n ∧ n.Reads a.kindFields := by
    unfold LogAppenderDefine.kindFields
    by_cases h1 : a.type = 1
    · obtain ⟨n, hn, hr⟩ := Node.reads_null.set "type" (.scalar "FileLogAppender")
      obtain ⟨n', hn', hr'⟩ := hr.set "file" (.scalar a.file)
      exact ⟨n', by simp [h1, hn, hn'], by simpa [h1] using hr'⟩
    · by_cases h2 : a.type = 2
      · obtain ⟨n, hn, hr⟩ := Node.reads_null.set "type" (.scalar "StdoutLogAppender")
        exact ⟨n, by simp [h2, hn], by simpa [h2] using hr⟩
      · exact ⟨.null, by simp [h1, h2], by simpa [h1, h2] using Node.reads_null⟩
  obtain ⟨hlevel, hformatter⟩ := kindFields_none a
  obtain ⟨n₂, h₂, hr₂⟩ := hr₁.setIf (v := .scalar a.level.ToString) (a.level ≠ .UNKNOW) hlevel
  obtain ⟨n₃, h₃, hr₃⟩ := hr₂.setIf (k := "formatter") (v := .scalar a.formatter)
    (a.formatter ≠ "") (by simpa using hformatter)
  exact ⟨n₃, by rw [encodeAppender, h₁, Except.ok_bind, h₂, Except.ok_bind, h₃], hr₃⟩

/-- A node for each appender, in order. -/
def Written (ds : List LogAppenderDefine) (ns : List Node) : Prop :=
  List.Forall₂ (fun a n ↦ n.Reads a.fields) ds ns

theorem encodeDefine_reads (i : LogDefine) :
    ∃ n ns, encodeDefine i = .ok n ∧ Written i.appenders ns ∧ n.Reads (i.fields ns) := by
  obtain ⟨n₁, h₁, hr₁⟩ := Node.reads_null.set "name" (.scalar i.name)
  obtain ⟨n₂, h₂, hr₂⟩ := hr₁.setIf (k := "level") (v := .scalar i.level.ToString)
    (i.level ≠ .UNKNOW) (by simp)
  obtain ⟨n₃, h₃, hr₃⟩ := hr₂.setIf (k := "formatter") (v := .scalar i.formatter)
    (i.formatter ≠ "") (by simp)
  have hloop : ∀ (ds done : List LogAppenderDefine) (n : Node) (ns : List Node),
      Written done ns → n.Reads (i.fields ns) →
      ∃ n' ns', ds.foldlM (fun n a ↦ do
          let na ← encodeAppender a
          n.pushAt "appenders" na) n = .ok n' ∧ Written (done ++ ds) ns' ∧
        n'.Reads (i.fields ns') := by
    intro ds
    induction ds with
    | nil => exact fun done n ns hw hr ↦ ⟨n, ns, rfl, by simpa using hw, hr⟩
    | cons a ds ih =>
        intro done n ns hw hr
        obtain ⟨na, hna, hra⟩ := encodeAppender_reads a
        obtain ⟨n', hn', hr'⟩ := hr.pushAt
          (show i.fields ns "appenders" = Node.listed ns by simp [LogDefine.fields]) na
        obtain ⟨n'', ns'', hn'', hw'', hr''⟩ := ih (done ++ [a]) n' (ns ++ [na])
          (List.rel_append hw (.cons hra .nil)) (by simpa [LogDefine.fields] using hr')
        refine ⟨n'', ns'', ?_, by simpa using hw'', hr''⟩
        rw [List.foldlM_cons, hna, Except.ok_bind, hn']
        exact hn''
  have hstart : n₃.Reads (i.fields []) := by
    rw [LogDefine.fields, Function.update_eq_self_iff.mpr (by simp [Node.listed])]
    exact hr₃
  obtain ⟨n, ns, hn, hw, hr⟩ := hloop i.appenders [] n₃ [] .nil hstart
  refine ⟨n, ns, ?_, by simpa using hw, hr⟩
  rw [encodeDefine, h₁, Except.ok_bind, h₂, Except.ok_bind, h₃]
  exact hn

/-! ## Reading what is written -/

/-- An appender without its level. -/
def LogAppenderDefine.forget (a : LogAppenderDefine) : LogAppenderDefine :=
  { a with level := .UNKNOW }

def LogDefine.forget (i : LogDefine) : LogDefine :=
  { i with appenders := i.appenders.map LogAppenderDefine.forget }

/-- A configuration without the levels of its appenders. -/
def LogDefines.forget (s : LogDefines) : LogDefines :=
  ⟨s.toList.map LogDefine.forget, List.pairwise_map.mpr s.sorted⟩

/-- An appender that has no data but that of its type. -/
def LogAppenderDefine.Pure (a : LogAppenderDefine) : Prop :=
  a.type = 1 ∨ a.type = 2 ∧ a.file = ""

/-- The level that is read where a level has been written: a value outside the
enumeration is written as "UNKNOW". -/
def Level.reread : Level → Level
  | .other _ _ => .UNKNOW
  | level => level

theorem Level.reread_named {level : Level} (h : level.Named) : level.reread = level := by
  cases level with
  | other v hv => exact absurd h id
  | _ => rfl

theorem Level.named_reread (level : Level) : level.reread.Named := by
  cases level <;> trivial

/-- A logger as it is read after it has been written. -/
def LogDefine.reread (i : LogDefine) : LogDefine := { i.forget with level := i.level.reread }

/-- A configuration as it is read after it has been written. -/
def LogDefines.reread (s : LogDefines) : LogDefines :=
  ⟨s.toList.map LogDefine.reread, List.pairwise_map.mpr s.sorted⟩

/-- The configurations with enumerators for levels and the two kinds of
appenders. -/
def LogDefines.Plain (s : LogDefines) : Prop :=
  ∀ i ∈ s, i.level.Named ∧ ∀ a ∈ i.appenders, a.level.Named ∧ a.Pure

section RoundTrip

variable {f : String → Option Node} {k : String} {ns : List Node} {ds : List LogAppenderDefine}
variable (hstr : ∀ t, y.asString (.scalar t) = .ok t)

include hstr

theorem stringOr_level (hr : n.Reads f) {level : Level} (hk : f "level" = levelField level) :
    ∃ t, stringOr y n "level" "" = .ok t ∧ Level.FromString t = level.reread := by
  rw [levelField] at hk
  by_cases h : level = .UNKNOW
  · exact ⟨"", by simp [stringOr, hr.get, hk, h], by rw [h, Level.fromString_empty]; rfl⟩
  · refine ⟨level.ToString, by simp [stringOr, hr.get, hk, h, hstr], ?_⟩
    cases level with
    | other v hv => exact (by decide : Level.FromString "UNKNOW" = .UNKNOW)
    | _ => exact Level.fromString_toString trivial

theorem stringOr_formatter (hr : n.Reads f) {formatter : String}
    (hk : f "formatter" = formatterField formatter) :
    stringOr y n "formatter" "" = .ok formatter := by
  rw [formatterField] at hk
  by_cases h : formatter = "" <;> simp [stringOr, hr.get, hk, h, hstr]

/-- The level that is written is not read. -/
theorem decodeAppender_reads (hr : n.Reads a.fields) (ha : a.Pure) :
    decodeAppender y n = .ok (some a.forget) := by
  have hformatter : stringOr y n "formatter" "" = .ok a.formatter := stringOr_formatter hstr hr
    (by simp [LogAppenderDefine.fields])
  obtain ⟨type, level, formatter, file⟩ := a
  rcases ha with rfl | ⟨rfl, rfl⟩
  · have htype := hr.get "type"
    have hfile := hr.get "file"
    simp only [LogAppenderDefine.fields, LogAppenderDefine.kindFields] at htype hfile
    simp [decodeAppender, htype, hfile, hstr, hformatter, LogAppenderDefine.forget]
  · have htype := hr.get "type"
    simp only [LogAppenderDefine.fields, LogAppenderDefine.kindFields] at htype
    simp [decodeAppender, htype, hstr, hformatter, LogAppenderDefine.forget]

theorem decodeAppenders_written (hw : Written ds ns) (hds : ∀ a ∈ ds, a.Pure) :
    decodeAppenders y (.rows ns) = .ok (ds.map LogAppenderDefine.forget) := by
  rw [decodeAppenders, Node.foldlM_rows]
  suffices h : ∀ lads, ns.foldlM (fun lads a ↦ readAppender y lads (some a)) lads =
      .ok (lads ++ ds.map LogAppenderDefine.forget) by
    simpa using h []
  induction hw with
  | nil => simp
  | @cons a n ds ns hr _ ih =>
      intro lads
      rw [List.foldlM_cons, readAppender, Option.getD_some,
        decodeAppender_reads hstr hr (hds a (by simp))]
      simpa using ih (fun a ha ↦ hds a (by simp [ha])) (lads ++ [a.forget])

theorem decodeDefine_reads (hw : Written i.appenders ns) (hr : n.Reads (i.fields ns))
    (hds : ∀ a ∈ i.appenders, a.Pure) : decodeDefine y n = .ok (some i.reread) := by
  have hname := hr.get "name"
  have happ := hr.get "appenders"
  have hformatter : stringOr y n "formatter" "" = .ok i.formatter := stringOr_formatter hstr hr
    (by simp [LogDefine.fields])
  have hfield : i.fields ns "level" = levelField i.level := by simp [LogDefine.fields]
  obtain ⟨t, hlevel, ht⟩ := stringOr_level hstr hr hfield
  simp only [LogDefine.fields] at hname happ
  cases hw' : i.appenders with
  | nil =>
      obtain rfl : ns = [] := List.forall₂_nil_left_iff.mp (hw' ▸ hw)
      simp [decodeDefine, hname, happ, hlevel, hformatter, hstr, Node.listed, ht,
        LogDefine.reread, LogDefine.forget, hw']
  | cons d ds =>
      cases ns with
      | nil => cases hw' ▸ hw
      | cons m ns =>
          have hdec := decodeAppenders_written hstr hw hds
          rw [Node.rows] at hdec
          simp [decodeDefine, hname, happ, hlevel, hformatter, hstr, Node.listed, ht,
            LogDefine.reread, LogDefine.forget, hdec]

end RoundTrip

/-- A node for each logger, in order. -/
def WrittenAll (is : List LogDefine) (ns : List Node) : Prop :=
  List.Forall₂ (fun i n ↦ ∃ as, Written i.appenders as ∧ n.Reads (i.fields as)) is ns

theorem encode_rows (s : LogDefines) :
    ∃ ns, s.encode = .ok (.rows ns) ∧ WrittenAll s.toList ns := by
  have hloop : ∀ (is done : List LogDefine) (ns : List Node), WrittenAll done ns →
      ∃ ns', is.foldlM (fun node i ↦ do
          let n ← encodeDefine i
          node.push_back n) (Node.rows ns) = .ok (.rows ns') ∧ WrittenAll (done ++ is) ns' := by
    intro is
    induction is with
    | nil => exact fun done ns hw ↦ ⟨ns, rfl, by simpa using hw⟩
    | cons i is ih =>
        intro done ns hw
        obtain ⟨n, as, hn, has, hr⟩ := encodeDefine_reads i
        obtain ⟨ns', hns', hw'⟩ := ih (done ++ [i]) (ns ++ [n])
          (List.rel_append hw (.cons ⟨as, has, hr⟩ .nil))
        refine ⟨ns', ?_, by simpa using hw'⟩
        rw [List.foldlM_cons, hn, Except.ok_bind, Node.rows_push_back]
        exact hns'
  exact hloop s.toList [] [] .nil

/-- What is written is read again, except for the levels of appenders and those
outside the enumeration. -/
theorem decode_rows (hstr : ∀ t, y.asString (.scalar t) = .ok t)
    (hs : ∀ i ∈ s, ∀ a ∈ i.appenders, a.Pure) {ns : List Node} (hw : WrittenAll s.toList ns) :
    LogDefines.decode y (.rows ns) = .ok s.reread := by
  rw [LogDefines.decode, Node.foldlM_rows]
  have hloop : ∀ (is : List LogDefine) (ns : List Node) (t : LogDefines), WrittenAll is ns →
      (∀ i ∈ is, i ∈ s) → ns.foldlM (fun m_set n ↦ readDefine y m_set (some n)) t =
        .ok ((is.map LogDefine.reread).foldl Keyed.insert t) := by
    intro is ns t hw
    induction hw generalizing t with
    | nil => exact fun _ ↦ rfl
    | @cons i n is ns hn _ ih =>
        intro hmem
        obtain ⟨as, has, hr⟩ := hn
        rw [List.foldlM_cons, readDefine, Option.getD_some,
          decodeDefine_reads hstr has hr (hs i (hmem i (by simp)))]
        exact ih (t.insert i.reread) fun j hj ↦ hmem j (by simp [hj])
  rw [hloop s.toList ns Keyed.empty hw fun _ h ↦ h]
  exact congrArg Except.ok (Keyed.ofList_toList s.reread)

/-- A configuration that is written can be read. -/
theorem LogDefines.reread_toString (hs : ∀ i ∈ s, ∀ a ∈ i.appenders, a.Pure)
    (hstr : ∀ t, y.asString (.scalar t) = .ok t)
    (hload : ∀ n, s.encode = .ok n → y.load (y.emit n) = .ok n) :
    ∃ text, s.toString y = .ok text ∧ LogDefines.fromString y text = .ok s.reread := by
  obtain ⟨ns, hns, hw⟩ := encode_rows s
  refine ⟨y.emit (.rows ns), by simp [LogDefines.toString, hns], ?_⟩
  rw [LogDefines.fromString, hload _ hns]
  exact decode_rows hstr hs hw

theorem reread_eq_forget (hs : s.Plain) : s.reread = s.forget := by
  refine Keyed.ext (List.map_congr_left fun i hi ↦ ?_)
  rw [LogDefine.reread, Level.reread_named (hs i hi).1]
  rfl

theorem map_eq_self_iff {α : Type} {g : α → α} {l : List α} :
    l.map g = l ↔ ∀ a ∈ l, g a = a := by
  conv_lhs => rhs; rw [← List.map_id l]
  exact List.map_inj_left

theorem forget_eq_self_iff : s.forget = s ↔ ∀ i ∈ s, ∀ a ∈ i.appenders, a.level = .UNKNOW := by
  have happ : ∀ a : LogAppenderDefine, a.forget = a ↔ a.level = .UNKNOW := by
    rintro ⟨type, level, formatter, file⟩
    simp [LogAppenderDefine.forget, eq_comm]
  have hdef : ∀ i : LogDefine, i.forget = i ↔ ∀ a ∈ i.appenders, a.level = .UNKNOW := by
    rintro ⟨name, level, formatter, appenders⟩
    simp only [LogDefine.forget, LogDefine.mk.injEq, true_and, ← happ]
    exact map_eq_self_iff
  constructor
  · intro h i hi
    exact (hdef i).mp (map_eq_self_iff.mp (congrArg Keyed.toList h) i hi)
  · exact fun h ↦ Keyed.ext (map_eq_self_iff.mpr fun i hi ↦ (hdef i).mpr (h i hi))

/-- A configuration that is written and read again loses the levels of its
appenders and nothing else. -/
theorem LogDefines.fromString_toString (hs : s.Plain)
    (hstr : ∀ t, y.asString (.scalar t) = .ok t)
    (hload : ∀ n, s.encode = .ok n → y.load (y.emit n) = .ok n) :
    (do LogDefines.fromString y (← s.toString y)) = .ok s.forget := by
  obtain ⟨text, htext, hread⟩ := s.reread_toString (fun i hi a ha ↦ ((hs i hi).2 a ha).2) hstr hload
  rw [htext, Except.ok_bind, hread, reread_eq_forget hs]

/-- **When a configuration survives writing and reading.**  For a yaml-cpp that
loads what it emits, the result equals the configuration exactly if no appender
has a level of its own. -/
theorem LogDefines.fromString_toString_iff (hs : s.Plain)
    (hstr : ∀ t, y.asString (.scalar t) = .ok t)
    (hload : ∀ n, s.encode = .ok n → y.load (y.emit n) = .ok n) :
    (do LogDefines.fromString y (← s.toString y)) = .ok s ↔
      ∀ i ∈ s, ∀ a ∈ i.appenders, a.level = .UNKNOW := by
  rw [LogDefines.fromString_toString hs hstr hload, Except.ok.injEq, forget_eq_self_iff]

/-- A logger with one appender on the console. -/
def console (level : Level) : LogDefines :=
  Keyed.empty.insert { name := "system", appenders := [{ type := 2, level }] }

/-- The tree written for it. -/
def consoleTree (fields : List (Node × Node)) : Node :=
  .sequence [.map [(.scalar "name", .scalar "system"),
    (.scalar "appenders",
      .sequence [.map ((.scalar "type", .scalar "StdoutLogAppender") :: fields)])]]

/-- What yaml-cpp does on the trees of `console`. -/
def consoleYaml : YamlCpp where
  emit
    | .sequence [.map [(.scalar k, .scalar v),
        (.scalar l, .sequence [.map [(.scalar t, .scalar u)]])]] =>
        "- " ++ k ++ ": " ++ v ++ "\n  " ++ l ++ ":\n    - " ++ t ++ ": " ++ u
    | .sequence [.map [(.scalar k, .scalar v),
        (.scalar l, .sequence [.map [(.scalar t, .scalar u), (.scalar t', .scalar u')]])]] =>
        "- " ++ k ++ ": " ++ v ++ "\n  " ++ l ++ ":\n    - " ++ t ++ ": " ++ u ++
          "\n      " ++ t' ++ ": " ++ u'
    | _ => "~"
  load v :=
    if v = "- name: system\n  appenders:\n    - type: StdoutLogAppender" then .ok (consoleTree [])
    else if
        v = "- name: system\n  appenders:\n    - type: StdoutLogAppender\n      level: INFO" then
      .ok (consoleTree [(.scalar "level", .scalar "INFO")])
    else .error .ParserException
  asString
    | .scalar s => .ok s
    | _ => .error .BadConversion
  asSize _ := none

theorem console_plain {level : Level} (h : level.Named) : (console level).Plain := by
  intro i hi
  rcases Keyed.mem_place hi with rfl | hi
  · refine ⟨trivial, fun a ha ↦ ?_⟩
    rw [List.mem_singleton.mp ha]
    exact ⟨h, .inr ⟨rfl, rfl⟩⟩
  · cases hi

theorem consoleYaml_unknow (n : Node) (h : (console .UNKNOW).encode = .ok n) :
    consoleYaml.load (consoleYaml.emit n) = .ok n := by
  have htree : (console .UNKNOW).encode = .ok (consoleTree []) := rfl
  rw [htree, Except.ok.injEq] at h
  subst h
  simp [consoleYaml, consoleTree]

theorem consoleYaml_info (n : Node) (h : (console .INFO).encode = .ok n) :
    consoleYaml.load (consoleYaml.emit n) = .ok n := by
  have htree : (console .INFO).encode =
      .ok (consoleTree [(.scalar "level", .scalar "INFO")]) := rfl
  rw [htree, Except.ok.injEq] at h
  subst h
  simp [consoleYaml, consoleTree]

theorem LogDefines.fromString_toString_iff_console :
    (do LogDefines.fromString consoleYaml (← (console .UNKNOW).toString consoleYaml)) =
      .ok (console .UNKNOW) := by
  have hplain : (console .UNKNOW).Plain := console_plain trivial
  refine (LogDefines.fromString_toString_iff hplain (fun _ ↦ rfl)
    consoleYaml_unknow).mpr fun i hi a ha ↦ ?_
  rcases Keyed.mem_place hi with rfl | hi
  · rw [List.mem_singleton.mp ha]
  · cases hi

/-- The level of an appender is written and not read. -/
theorem LogDefines.fromString_toString_level :
    (console .INFO).Plain ∧ (∀ t, consoleYaml.asString (.scalar t) = .ok t) ∧
      (∀ n, (console .INFO).encode = .ok n →
        consoleYaml.load (consoleYaml.emit n) = .ok n) ∧
      (do LogDefines.fromString consoleYaml (← (console .INFO).toString consoleYaml)) ≠
        .ok (console .INFO) := by
  have hplain : (console .INFO).Plain := console_plain trivial
  refine ⟨hplain, fun _ ↦ rfl, consoleYaml_info, ?_⟩
  rw [LogDefines.fromString_toString hplain (fun _ ↦ rfl) consoleYaml_info]
  intro h
  have hlevel := congrArg (fun s : LogDefines ↦ s.toList.map LogDefine.appenders)
    (Except.ok.inj h)
  revert hlevel
  decide

end Sylar.Log
