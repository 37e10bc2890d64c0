import Mathlib.Data.List.Infix
import Mathlib.Data.List.Basic

namespace WebServer.Paths

theorem infix_intercalate {α : Type} {x : α} {c : List α} {cs : List (List α)} (h : c ∈ cs) :
    c <:+: [x].intercalate cs := by
  induction cs with
  | nil => simp at h
  | cons d cs ih =>
      cases cs with
      | nil =>
          obtain rfl := List.mem_singleton.1 h
          simp
      | cons e cs =>
          rw [List.intercalate_cons_cons]
          rcases List.mem_cons.1 h with rfl | h
          · exact ((List.prefix_append _ _).trans (List.prefix_append _ _)).isInfix
          · exact (ih h).trans (List.suffix_append _ _).isInfix

theorem infix_append_cons {α : Type} {l a b : List α} {x : α} (h : x ∉ l) :
    l <:+: a ++ x :: b ↔ l <:+: a ∨ l <:+: b := by
  rw [List.infix_append_iff, List.infix_cons_iff]
  constructor
  · rintro (ha | (hp | hb) | ⟨l₁, l₂, rfl, hs, hp⟩)
    · exact .inl ha
    · cases l with
      | nil => exact .inl (List.nil_infix)
      | cons y l =>
          obtain ⟨rfl, -⟩ := List.cons_prefix_cons.1 hp
          exact absurd (by simp) h
    · exact .inr hb
    · cases l₂ with
      | nil => exact .inl (by simpa using hs.isInfix)
      | cons y l₂ =>
          obtain ⟨rfl, -⟩ := List.cons_prefix_cons.1 hp
          exact absurd (by simp) h
  · rintro (ha | hb)
    · exact .inl ha
    · exact .inr (.inl (.inr hb))

variable {α : Type} [DecidableEq α] (sep dot : α)

def components (path : List α) : List (List α) := path.splitOn sep

/-- A directory, seen from the one where a walk starts: some levels up, then down
along `names`, of which the last is first. -/
structure Position (α : Type) where
  ups : Nat
  names : List (List α)
  deriving DecidableEq

def start : Position α := ⟨0, []⟩

variable {sep dot}

def Position.up (p : Position α) : Position α :=
  match p.names with
  | [] => { p with ups := p.ups + 1 }
  | _ :: names => { p with names := names }

variable (dot) in
def Position.enter (p : Position α) (c : List α) : Position α :=
  if c = [] ∨ c = [dot] then p
  else if c = [dot, dot] then p.up
  else { p with names := c :: p.names }

variable (dot) in
def walk (p : Position α) (cs : List (List α)) : Position α := cs.foldl (Position.enter dot) p

def Position.Within (dir : List α) (p : Position α) : Prop := p.ups = 0 ∧ [dir] <:+ p.names

instance (dir : List α) (p : Position α) : Decidable (p.Within dir) := by
  unfold Position.Within
  infer_instance

variable {dir path : List α} {c : List α} {cs : List (List α)} {p : Position α}

theorem enter_within (hc : c ≠ [dot, dot]) (hp : p.Within dir) : (p.enter dot c).Within dir := by
  rw [Position.enter, if_neg hc]
  split
  · exact hp
  · exact ⟨hp.1, hp.2.trans (List.suffix_cons _ _)⟩

theorem walk_within (hcs : [dot, dot] ∉ cs) (hp : p.Within dir) : (walk dot p cs).Within dir := by
  induction cs generalizing p with
  | nil => exact hp
  | cons c cs ih =>
      have hc : c ≠ [dot, dot] := fun h => hcs (by simp [h])
      exact ih (fun h => hcs (List.mem_cons_of_mem _ h)) (enter_within hc hp)

theorem infix_of_component (h : c ∈ components sep path) : c <:+: path := by
  have hi := infix_intercalate (x := sep) h
  rwa [components, List.intercalate_splitOn] at hi

theorem components_append (a b : List α) :
    components sep (a ++ sep :: b) = components sep a ++ components sep b :=
  List.splitOn_append_cons_self a b

theorem components_one (h : sep ∉ path) : components sep path = [path] :=
  List.splitOn_eq_singleton h

variable (sep dot dir) in
def below : List α := dot :: sep :: (dir ++ [sep])

variable (sep dot dir) in
/-- The path begins with `./dir/`, and however many of its other components are
walked, this does not leave `dir`. -/
def Confined (path : List α) : Prop :=
  below sep dot dir <+: path ∧
    ∀ k, (walk dot start ((components sep path).take (k + 2))).Within dir

structure Name (sep dot : α) (dir : List α) : Prop where
  sep : sep ∉ dir
  ne_nil : dir ≠ []
  ne_dot : dir ≠ [dot]
  ne_up : dir ≠ [dot, dot]

theorem Name.enter (h : Name sep dot dir) : (start.enter dot dir).Within dir := by
  rw [Position.enter, if_neg (by simp [h.ne_nil, h.ne_dot]), if_neg h.ne_up]
  exact ⟨rfl, List.suffix_rfl⟩

theorem components_below (hs : dot ≠ sep) (h : Name sep dot dir) (rest : List α) :
    components sep (below sep dot dir ++ rest) = [dot] :: dir :: components sep rest := by
  have hdot : sep ∉ [dot] := by simpa using hs.symm
  have hcut : below sep dot dir ++ rest = [dot] ++ sep :: (dir ++ sep :: rest) := by simp [below]
  rw [hcut, components_append, components_append, components_one hdot, components_one h.sep]
  rfl

theorem confined_below (hs : dot ≠ sep) (h : Name sep dot dir) {rest : List α}
    (hr : [dot, dot] ∉ components sep rest) : Confined sep dot dir (below sep dot dir ++ rest) := by
  refine ⟨List.prefix_append _ _, fun k => ?_⟩
  rw [components_below hs h, List.take_succ_cons, List.take_succ_cons, walk, List.foldl_cons,
    List.foldl_cons]
  have hstart : (start : Position α).enter dot [dot] = start := by simp [Position.enter]
  rw [hstart]
  exact walk_within (fun hm => hr (List.mem_of_mem_take hm)) h.enter

end WebServer.Paths
