import AgenticCore.Json

/-!
# Errors and shared field checks of the core (`lib.rs`)

`require_text`, `strings`, `unique_strings`, the consequence identities of `affects`, semantic
route identities and sha256 revisions. Every check either returns the normal form of its input or
an error that names the field. An error's dispatch and assignment marks are never set by the code
modelled here, so a `CoreError` is its message.
-/

set_option autoImplicit false

/-! ## Successful computations in `Except` -/

section ExceptLemmas

universe u v

variable {ε : Type u} {α β : Type v}

/-- A sequence succeeds when each of its steps does. -/
theorem Except.bind_eq_ok_iff {x : Except ε α} {f : α → Except ε β} {b : β} :
    (x >>= f) = .ok b ↔ ∃ a, x = .ok a ∧ f a = .ok b := by
  cases x with
  | error e =>
    constructor
    · intro h
      cases h
    · rintro ⟨a, h, -⟩
      cases h
  | ok a =>
    constructor
    · intro h
      exact ⟨a, rfl, h⟩
    · rintro ⟨a', h, hf⟩
      cases h
      exact hf

theorem Except.isOk_iff {x : Except ε α} : x.isOk = true ↔ ∃ a, x = .ok a := by
  cases x <;> simp [Except.isOk, Except.toBool]

/-- `.transpose()?`: run a check on an optional value. -/
def transposeM {m : Type → Type} [Monad m] {α β : Type} (f : α → m β) : Option α → m (Option β)
  | none => pure none
  | some a => some <$> f a

/-- Fail with `e` unless the condition holds. -/
def require (cond : Prop) [Decidable cond] (e : ε) : Except ε Unit :=
  if cond then .ok () else .error e

theorem Except.pure_eq_ok_iff {a b : α} : (pure a : Except ε α) = .ok b ↔ a = b :=
  ⟨fun h => by cases h; rfl, fun h => h ▸ rfl⟩

theorem require_eq_ok {cond : Prop} [Decidable cond] {e : ε} {u : Unit} :
    require cond e = .ok u ↔ cond := by
  unfold require
  split <;> simp [*]

theorem foldlM_cons_eq_ok {f : β → α → Except ε β} {a : α} {l : List α} {b b' : β} :
    (a :: l).foldlM f b = .ok b' ↔ ∃ mid, f b a = .ok mid ∧ l.foldlM f mid = .ok b' := by
  rw [List.foldlM_cons, Except.bind_eq_ok_iff]

theorem foldlM_ok_from {f : β → α → Except ε β} (P : List α → β → Prop)
    (step : ∀ done a b b', P done b → f b a = .ok b' → P (done ++ [a]) b') :
    ∀ {l done : List α} {b b' : β}, P done b → l.foldlM f b = .ok b' → P (done ++ l) b'
  | [], done, b, b', hb, h => by
    cases h
    simpa using hb
  | a :: l, done, b, b', hb, h => by
    obtain ⟨mid, ha, hl⟩ := foldlM_cons_eq_ok.mp h
    have := foldlM_ok_from P step (step done a b mid hb ha) hl
    simpa using this

/-- What a successful fold establishes, by induction on the elements folded so far. -/
theorem foldlM_ok_induction {f : β → α → Except ε β} {l : List α} {b b' : β}
    (P : List α → β → Prop)
    (step : ∀ done a b b', P done b → f b a = .ok b' → P (done ++ [a]) b')
    (start : P [] b) (h : l.foldlM f b = .ok b') : P l b' := by
  simpa using foldlM_ok_from P step start h

theorem forM_eq_ok {γ : Type u} {f : γ → Except ε PUnit} :
    ∀ {l : List γ} {u : PUnit}, l.forM f = .ok u ↔ ∀ a ∈ l, f a = .ok ⟨⟩
  | [], u => by simp [List.forM, Except.pure_eq_ok_iff]
  | a :: l, u => by
    change (f a >>= fun _ => l.forM f) = .ok u ↔ _
    rw [Except.bind_eq_ok_iff, List.forall_mem_cons]
    constructor
    · rintro ⟨⟨⟩, ha, hl⟩
      exact ⟨ha, forM_eq_ok.mp hl⟩
    · rintro ⟨ha, hl⟩
      exact ⟨⟨⟩, ha, forM_eq_ok.mpr hl⟩

theorem mapM_eq_ok {f : α → Except ε β} :
    ∀ {l : List α} {r : List β}, l.mapM f = .ok r ↔ List.Forall₂ (fun a b => f a = .ok b) l r
  | [], r => by
    rw [List.mapM_nil, Except.pure_eq_ok_iff, List.forall₂_nil_left_iff, eq_comm]
  | a :: l, r => by
    rw [List.mapM_cons, Except.bind_eq_ok_iff]
    simp only [Except.bind_eq_ok_iff, Except.pure_eq_ok_iff, mapM_eq_ok (l := l),
      List.forall₂_cons_left_iff]
    constructor
    · rintro ⟨b, hb, bs, hbs, rfl⟩
      exact ⟨b, bs, hb, hbs, rfl⟩
    · rintro ⟨b, bs, hb, hbs, rfl⟩
      exact ⟨b, hb, bs, hbs, rfl⟩

theorem mapM_ok_eq_map {f : α → Except ε β} {g : α → β} (hg : ∀ a b, f a = .ok b → b = g a)
    {l : List α} {r : List β} (h : l.mapM f = .ok r) : r = l.map g := by
  have hr := mapM_eq_ok.mp h
  clear h
  induction hr with
  | nil => rfl
  | cons h _ ih => rw [List.map_cons, ih, hg _ _ h]

theorem mapM_ok_mem {f : α → Except ε β} {l : List α} {r : List β} (h : l.mapM f = .ok r) :
    ∀ a ∈ l, ∃ b ∈ r, f a = .ok b := by
  have hr := mapM_eq_ok.mp h
  clear h
  induction hr with
  | nil => simp
  | cons h _ ih =>
    intro a ha
    rcases List.mem_cons.mp ha with rfl | ha
    · exact ⟨_, List.mem_cons_self, h⟩
    · obtain ⟨b, hb, hab⟩ := ih a ha
      exact ⟨b, List.mem_cons_of_mem _ hb, hab⟩

theorem mapM_eq_ok_map {f : α → Except ε β} {P : α → Prop} {g : α → β}
    (h : ∀ a b, f a = .ok b ↔ P a ∧ b = g a) {l : List α} {r : List β} :
    l.mapM f = .ok r ↔ (∀ a ∈ l, P a) ∧ r = l.map g := by
  induction l generalizing r with
  | nil =>
    rw [List.mapM_nil, Except.pure_eq_ok_iff]
    simp [eq_comm]
  | cons a l ih =>
    simp only [List.mapM_cons, Except.bind_eq_ok_iff, Except.pure_eq_ok_iff, h, ih,
      List.forall_mem_cons, List.map_cons]
    constructor
    · rintro ⟨_, ⟨ha, rfl⟩, _, ⟨hl, rfl⟩, rfl⟩
      exact ⟨⟨ha, hl⟩, rfl⟩
    · rintro ⟨⟨ha, hl⟩, rfl⟩
      exact ⟨_, ⟨ha, rfl⟩, _, ⟨hl, rfl⟩, rfl⟩

/-! ### Failures -/

theorem Except.bind_eq_error_iff {x : Except ε α} {f : α → Except ε β} {e : ε} :
    x >>= f = .error e ↔ x = .error e ∨ ∃ a, x = .ok a ∧ f a = .error e := by
  cases x with
  | error e' => simp [bind, Except.bind]
  | ok a => simp [bind, Except.bind]

theorem Except.pure_ne_error {a : α} {e : ε} : (pure a : Except ε α) = .error e ↔ False := by
  simp [pure, Except.pure]

theorem mapM_error {f : α → Except ε β} {e : ε} :
    ∀ {l : List α}, l.mapM f = .error e → ∃ a ∈ l, f a = .error e
  | [], h => by
    rw [List.mapM_nil] at h
    cases h
  | a :: l, h => by
    rw [List.mapM_cons] at h
    cases ha : f a with
    | error e' =>
      rw [ha] at h
      cases h
      exact ⟨a, List.mem_cons_self, ha⟩
    | ok b =>
      cases hl : l.mapM f with
      | error e' =>
        rw [ha, hl] at h
        cases h
        obtain ⟨x, hx, hfx⟩ := mapM_error hl
        exact ⟨x, List.mem_cons_of_mem _ hx, hfx⟩
      | ok bs =>
        rw [ha, hl] at h
        cases h

end ExceptLemmas

namespace AgenticCore

open Json Text

structure CoreError where
  message : String
  deriving DecidableEq, Repr

/-- The result type of the core. -/
abbrev Result (α : Type) := Except CoreError α

def fail {α : Type} (message : String) : Result α := .error ⟨message⟩

def check (cond : Prop) [Decidable cond] (message : String) : Result Unit := require cond ⟨message⟩

@[simp] theorem check_eq_ok {cond : Prop} [Decidable cond] {message : String} {u : Unit} :
    check cond message = .ok u ↔ cond := require_eq_ok

@[simp] theorem fail_eq_ok {α : Type} {message : String} {a : α} :
    fail message = .ok a ↔ False := by
  simp [fail]

def okOr {α : Type} (a : Option α) (message : String) : Result α :=
  match a with
  | some a => .ok a
  | none => fail message

@[simp] theorem okOr_eq_ok {α : Type} {o : Option α} {message : String} {a : α} :
    okOr o message = .ok a ↔ o = some a := by
  cases o <;> simp [okOr]

/-- What `f` makes of an element enters the map under its key, unless the key is taken. -/
def insertFresh {α β : Type} (f : α → Result β) (key : β → String) (message : String)
    (m : BTreeMap String β) (a : α) : Result (BTreeMap String β) := do
  let b ← f a
  check (m[key b]?.isNone) message
  pure (m.insert (key b) b)

/-- `m` holds what `f` makes of each listed element under its key, and nothing else; the keys
    are distinct. -/
structure KeyedBy {α β : Type} (f : α → Result β) (key : β → String) (listed : List α)
    (m : BTreeMap String β) : Prop where
  holds : ∀ a ∈ listed, ∃ b, f a = .ok b ∧ m[key b]? = some b
  origin : ∀ (k : String) (b : β), m[k]? = some b → ∃ a ∈ listed, f a = .ok b ∧ key b = k
  distinct : listed.Pairwise fun a a' => ∀ b b', f a = .ok b → f a' = .ok b' → key b ≠ key b'

theorem KeyedBy.nil {α β : Type} {f : α → Result β} {key : β → String} : KeyedBy f key [] ∅ :=
  ⟨by simp, by simp, .nil⟩

theorem KeyedBy.snoc {α β : Type} {f : α → Result β} {key : β → String} {message : String}
    {listed : List α} {m m' : BTreeMap String β} {a : α} (K : KeyedBy f key listed m)
    (h : insertFresh f key message m a = .ok m') : KeyedBy f key (listed ++ [a]) m' := by
  simp only [insertFresh, Except.bind_eq_ok_iff, check_eq_ok, Except.pure_eq_ok_iff] at h
  obtain ⟨b, hb, -, hfresh, rfl⟩ := h
  have hne : ∀ c : β, m[key c]? = some c → key b ≠ key c := by
    intro c hc heq
    rw [heq, hc] at hfresh
    cases hfresh
  refine ⟨?_, ?_, ?_⟩
  · intro a' ha'
    rw [List.mem_append, List.mem_singleton] at ha'
    rcases ha' with ha' | rfl
    · obtain ⟨c, hc, hm⟩ := K.holds a' ha'
      exact ⟨c, hc, by rw [Std.ExtTreeMap.getElem?_insert, if_neg (by simpa using hne c hm), hm]⟩
    · exact ⟨b, hb, Std.ExtTreeMap.getElem?_insert_self⟩
  · intro k c hc
    rw [Std.ExtTreeMap.getElem?_insert] at hc
    split at hc
    · rename_i heq
      cases hc
      exact ⟨a, by simp, hb, by simpa using heq⟩
    · obtain ⟨a', ha', hc, hk⟩ := K.origin k c hc
      exact ⟨a', by simp [ha'], hc, hk⟩
  · refine List.pairwise_append.mpr ⟨K.distinct, List.pairwise_singleton _ _, ?_⟩
    intro a' ha' a'' ha'' c c' hc hc'
    obtain ⟨d, hd, hm⟩ := K.holds a' ha'
    rw [List.mem_singleton.mp ha'', hb] at hc'
    rw [hd] at hc
    cases hc
    cases hc'
    exact (hne _ hm).symm

/-- Every element of an accepted list has its own key. -/
theorem keyedBy_of_foldlM {α β : Type} {f : α → Result β} {key : β → String} {message : String}
    {listed : List α} {m : BTreeMap String β}
    (h : listed.foldlM (insertFresh f key message) ∅ = .ok m) : KeyedBy f key listed m :=
  foldlM_ok_induction (KeyedBy f key) (fun _ _ _ _ K h => K.snoc h) .nil h

/-- Stands for the JSON library's own error texts. -/
def MALFORMED : String := "malformed value"

def TASK : String := "task"

def CONSEQUENCE_PREFIXES : List String :=
  ["action:", "decision:", "effect:", "claim:", "outcome:", "attestation:"]

def requireText (value field : String) : Result String :=
  let normalized := trim value
  if normalized = "" then fail s!"{field} is required" else .ok normalized

@[simp] theorem requireText_eq_ok {value field text : String} :
    requireText value field = .ok text ↔ trim value ≠ "" ∧ text = trim value := by
  simp only [requireText]
  split
  · simp [*]
  · rename_i hne
    simp [hne, eq_comm (a := text)]

def strings (values : List String) (field : String) (canonicalSet : Bool) : Result (List String) := do
  check (∀ v ∈ values, v ≠ "") s!"{field} must contain non-empty strings"
  pure (if canonicalSet then sortDedup values else values)

@[simp] theorem strings_eq_ok {values result : List String} {field : String} {canonicalSet : Bool} :
    strings values field canonicalSet = .ok result ↔
      (∀ v ∈ values, v ≠ "") ∧ result = if canonicalSet then sortDedup values else values := by
  simp only [strings, Except.bind_eq_ok_iff, check_eq_ok, Except.pure_eq_ok_iff]
  simp [eq_comm]

def uniqueStrings (values : List String) (field : String) : Result (List String) := do
  let originalLen := values.length
  let values ← strings values field true
  check (values.length = originalLen) s!"{field} must not contain duplicate values"
  pure values

@[simp] theorem uniqueStrings_eq_ok {values result : List String} {field : String} :
    uniqueStrings values field = .ok result ↔
      (∀ v ∈ values, v ≠ "") ∧ (sortDedup values).length = values.length ∧
        result = sortDedup values := by
  simp only [uniqueStrings, Except.bind_eq_ok_iff, strings_eq_ok, check_eq_ok, if_true,
    Except.pure_eq_ok_iff]
  constructor
  · rintro ⟨a, ⟨hne, rfl⟩, u, hlen, rfl⟩
    exact ⟨hne, hlen, rfl⟩
  · rintro ⟨hne, hlen, rfl⟩
    exact ⟨_, ⟨hne, rfl⟩, (), hlen, rfl⟩

/-- A consequence identity: `task`, or a known prefix with something after it. -/
def supportedConsequence (value : String) : Bool :=
  value == TASK || CONSEQUENCE_PREFIXES.any fun pre =>
    startsWith pre value && pre.utf8ByteSize < value.utf8ByteSize

def affects (values : List String) (field : String) : Result (List String) := do
  let values ← strings values field true
  check (values ≠ []) s!"{field} must name at least one affected consequence"
  check (∀ v ∈ values, supportedConsequence v = true)
    s!"{field} contains an unsupported consequence identity"
  pure values

theorem affects_eq_ok {values result : List String} {field : String} :
    affects values field = .ok result ↔
      (∀ v ∈ values, v ≠ "") ∧ sortDedup values ≠ [] ∧
        (∀ v ∈ sortDedup values, supportedConsequence v = true) ∧ result = sortDedup values := by
  simp only [affects, Except.bind_eq_ok_iff, strings_eq_ok, check_eq_ok, if_true,
    Except.pure_eq_ok_iff]
  constructor
  · rintro ⟨a, ⟨hne, rfl⟩, _, hempty, _, hsup, rfl⟩
    exact ⟨hne, hempty, hsup, rfl⟩
  · rintro ⟨hne, hempty, hsup, rfl⟩
    exact ⟨_, ⟨hne, rfl⟩, (), hempty, (), hsup, rfl⟩

def asciiLowerOrDigit (c : Char) : Bool := ('a' ≤ c && c ≤ 'z') || ('0' ≤ c && c ≤ '9')

def semanticRouteId (value : String) : Bool :=
  let segments := value.toList.splitOn '/'
  2 ≤ segments.length && segments.all fun segment =>
    match segment with
    | [] => false
    | first :: _ => asciiLowerOrDigit first && segment.all fun c => asciiLowerOrDigit c || c == '-'

def lowerHexDigit (c : Char) : Bool := ('0' ≤ c && c ≤ '9') || ('a' ≤ c && c ≤ 'f')

def sha256Revision (value : String) : Bool :=
  value.utf8ByteSize == 71 && startsWith "sha256:" value && (value.toList.drop 7).all lowerHexDigit

def routeIds (values : List String) (field : String) : Result (List String) := do
  check (∀ v ∈ values, semanticRouteId v = true)
    s!"{field} contains an invalid semantic route identity"
  let originalLen := values.length
  let values := sortDedup values
  check (values.length = originalLen) s!"{field} must not contain duplicate routes"
  pure values

theorem routeIds_eq_ok {values result : List String} {field : String} :
    routeIds values field = .ok result ↔
      (∀ v ∈ values, semanticRouteId v = true) ∧ (sortDedup values).length = values.length ∧
        result = sortDedup values := by
  simp only [routeIds, Except.bind_eq_ok_iff, check_eq_ok, Except.pure_eq_ok_iff]
  constructor
  · rintro ⟨_, hid, _, hlen, rfl⟩
    exact ⟨hid, hlen, rfl⟩
  · rintro ⟨hid, hlen, rfl⟩
    exact ⟨(), hid, (), hlen, rfl⟩

end AgenticCore
