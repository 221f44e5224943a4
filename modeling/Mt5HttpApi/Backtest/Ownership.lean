import Mt5HttpApi.Config
import Mt5HttpApi.Backtest.Worker

/-!
# Which API process owns a job

Every API process of a host sees every state file of the shared job directory. `owns_job` decides
which of them are its own, from the record's broker, account and instance, from what the process
was started with, and, for a record that names no instance, from the number of terminals that
`config.yaml` lists for the broker and account.

A process is started with strings: `config_helper.py terminals` prints an entry's values. The count
compares these with the values of the YAML file as they are, so an account written without quotes,
an integer there, is never counted, and every instance of the account claims a record without an
instance (`not_atMostOneOwner`). `atMostOneOwner_iff` says when there is at most one owner.
-/

namespace Backtest

open Config

/-- A value of `config.yaml`. -/
inductive Scalar
  | str (text : String)
  | int (n : ℤ)
  /-- A float, a boolean or a null, by its `str()`. -/
  | other (text : String)
  deriving DecidableEq, Repr

/-- `str(value)`. -/
def Scalar.render : Scalar → String
  | str text | other text => text
  | int n => toString n

/-- An entry of the `terminals` list. -/
structure TerminalEntry where
  broker : Scalar
  account : Scalar
  inst : Option Scalar
  deriving DecidableEq, Repr

/-- `_configured_terminals`: a value that is no string equals no string. -/
def configuredTerminals (terms : List TerminalEntry) (broker account : String) : ℕ :=
  terms.countP fun t => t.broker = .str broker ∧ t.account = .str account

/-- The broker, account and instance the API process of an entry is started with. -/
def TerminalEntry.identity (t : TerminalEntry) : String × String × String :=
  (t.broker.render, t.account.render, normalizeInstance (t.inst.map Scalar.render))

/-- The process of the entry `t` of the list `terms`. -/
def processOf (terms : List TerminalEntry) (t : TerminalEntry) : Identity where
  broker := t.broker.render
  account := t.account.render
  inst := some (normalizeInstance (t.inst.map Scalar.render))
  configuredTerminals := configuredTerminals terms t.broker.render t.account.render
  normalizeInstance := normalizeInstance

/-- At most one of the processes of the configured terminals owns the job. -/
def AtMostOneOwner (terms : List TerminalEntry) (job : Job) : Prop :=
  ∀ t ∈ terms, ∀ u ∈ terms, ownsJob (processOf terms t) job = true →
    ownsJob (processOf terms u) job = true → t.identity = u.identity

/-- The entry has the broker and account that the record names. -/
def TerminalEntry.hosts (t : TerminalEntry) (job : Job) : Prop :=
  t.broker.render = job.broker ∧ t.account.render = job.account

/-- When a process owns a job: the record names its broker and account, and its instance or, when
it names none, at most one terminal is counted. -/
theorem ownsJob_iff {terms : List TerminalEntry} {t : TerminalEntry} {job : Job} :
    ownsJob (processOf terms t) job = true ↔ t.hosts job ∧
      (∀ i, job.inst = some i → normalizeInstance (some i) = t.identity.2.2) ∧
      (job.inst = none → configuredTerminals terms job.broker job.account ≤ 1) := by
  unfold ownsJob processOf TerminalEntry.hosts TerminalEntry.identity
  by_cases hb : job.broker = t.broker.render
  · by_cases ha : job.account = t.account.render
    · cases hi : job.inst <;> simp [hb, ha, normalizeInstance_idem]
    · simp [hb, ha, Ne.symm ha]
  · simp [hb, Ne.symm hb]

/-- At most one process owns a job exactly when the record names an instance, or one terminal at
most is configured for its broker and account, or more than one of them is counted, which is one
whose broker and account are both strings in the YAML file. -/
theorem atMostOneOwner_iff (terms : List TerminalEntry) (job : Job) :
    AtMostOneOwner terms job ↔
      job.inst ≠ none ∨
        (∀ t ∈ terms, ∀ u ∈ terms, t.hosts job → u.hosts job → t.identity = u.identity) ∨
        1 < terms.countP fun t => t.broker = .str job.broker ∧ t.account = .str job.account := by
  change _ ↔ _ ∨ _ ∨ 1 < configuredTerminals terms job.broker job.account
  unfold AtMostOneOwner
  simp only [ownsJob_iff]
  constructor
  · intro h
    by_cases hinst : job.inst = none
    · by_cases hcount : configuredTerminals terms job.broker job.account ≤ 1
      · refine Or.inr (Or.inl fun t ht u hu hhost hhost' => ?_)
        exact h t ht u hu ⟨hhost, by simp [hinst], fun _ => hcount⟩
          ⟨hhost', by simp [hinst], fun _ => hcount⟩
      · exact Or.inr (Or.inr (not_le.mp hcount))
    · exact Or.inl hinst
  · rintro h t ht u hu ⟨hhost, hname, hnone⟩ ⟨hhost', hname', -⟩
    rcases h with hinst | hone | hcount
    · obtain ⟨i, hi⟩ := Option.ne_none_iff_exists'.mp hinst
      have hlast := (hname i hi).symm.trans (hname' i hi)
      exact Prod.ext (hhost.1.trans hhost'.1.symm) (Prod.ext (hhost.2.trans hhost'.2.symm) hlast)
    · exact hone t ht u hu hhost hhost'
    · cases hi : job.inst with
      | none => exact absurd (hnone hi) (not_le.mpr hcount)
      | some i =>
        have hlast := (hname i hi).symm.trans (hname' i hi)
        exact Prod.ext (hhost.1.trans hhost'.1.symm)
          (Prod.ext (hhost.2.trans hhost'.2.symm) hlast)

/-- Two instances of one account, whose number stands in the YAML file without quotes. -/
def unquotedAccount : List TerminalEntry :=
  [⟨.str "acme", .int 5012345, some (.str "one")⟩, ⟨.str "acme", .int 5012345, some (.str "two")⟩]

/-- Both instances claim a record that names no instance. -/
theorem not_atMostOneOwner : ¬ ∀ terms job, AtMostOneOwner terms job := by
  intro h
  have hsame := h unquotedAccount { Job.blank with broker := "acme", account := "5012345" }
    _ List.mem_cons_self _ (List.mem_cons_of_mem _ List.mem_cons_self) (by decide) (by decide)
  exact absurd hsame (by decide)

end Backtest
