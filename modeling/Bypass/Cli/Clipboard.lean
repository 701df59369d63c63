import Bypass.Foundations.Runs
import Bypass.Foundations.Text

/-!
# The clipboard

`bypass show -c` starts a daemon (`clipboard.rs`), which saves the text of the clipboard, puts the
password there, and waits. When its window closes it puts back what it saved, if the clipboard
still has its password. Several daemons share the clipboard: each of their calls is an event.

The clipboard holds a text or none, and its calls do not fail. A daemon that is told to end closes
its window early.

* `Clipboard.Inv`: a password that is on the clipboard, or saved, is one that a daemon still guards.
* `auto_clear`: when windows are nested, no password is left behind.
* `overlap_leaves`: of two windows that overlap, the first password stays.
-/

namespace Bypass

/-- `RestoreGuard`. -/
structure RestoreGuard where
  password : Str
  previous : Option Str
  deriving DecidableEq

/-- The clipboard, with the daemons that have saved its text and not set it yet, those whose windows
are open, and those that have found their password at the end and put back what they saved. -/
structure Clipboard where
  text : Option Str
  starting : List RestoreGuard
  waiting : List RestoreGuard
  restoring : List RestoreGuard
  deriving DecidableEq

/-- The calls of the daemons. -/
inductive ClipboardEvent where
  | start (password : Str)
  | install (guard : RestoreGuard)
  | expire (guard : RestoreGuard)
  | restore (guard : RestoreGuard)
  deriving DecidableEq

namespace Clipboard

/-- No daemon has been started. -/
def fresh (text : Option Str) : Clipboard := ⟨text, [], [], []⟩

/-- A daemon saves the text; an empty password is refused. -/
def start (s : Clipboard) (password : Str) : Option Clipboard :=
  if password = [] then none
  else some { s with starting := s.starting ++ [⟨password, s.text⟩] }

/-- It sets its password. -/
def install (s : Clipboard) (guard : RestoreGuard) : Option Clipboard :=
  if guard ∈ s.starting then
    some { s with
      text := some guard.password
      starting := s.starting.erase guard
      waiting := s.waiting ++ [guard] }
  else none

/-- Its window closes: `restore_now` compares the text with the password. -/
def expire (s : Clipboard) (guard : RestoreGuard) : Option Clipboard :=
  if guard ∈ s.waiting then
    if s.text = some guard.password then
      some { s with
        waiting := s.waiting.erase guard
        restoring := s.restoring ++ [guard] }
    else some { s with waiting := s.waiting.erase guard }
  else none

/-- `restore_now` sets the text that was saved, or clears the clipboard. -/
def restore (s : Clipboard) (guard : RestoreGuard) : Option Clipboard :=
  if guard ∈ s.restoring then
    some { s with text := guard.previous, restoring := s.restoring.erase guard }
  else none

/-- **The daemons on one clipboard**, in any order of their calls. -/
def daemons : Machine Clipboard ClipboardEvent Empty := fun s e =>
  (match e with
    | .start password => s.start password
    | .install guard => s.install guard
    | .expire guard => s.expire guard
    | .restore guard => s.restore guard).map fun t => (t, [])

/-! ## Nested windows -/

/-- A daemon will compare the clipboard with this password. -/
def Guarded (s : Clipboard) (password : Str) : Prop :=
  ∃ g ∈ s.starting ++ s.waiting, g.password = password

/-- Who may still restore when the window of `guard` has closed. -/
def restorers (s : Clipboard) (guard : RestoreGuard) : List RestoreGuard :=
  s.starting ++ s.waiting.erase guard ++ s.restoring ++
    if s.text = some guard.password then [guard] else []

/-- **Windows are nested.** When a window closes, nobody who may still restore has saved its
password (neither has this daemon, if it is to restore), unless another daemon guards it; and no
daemon saves a password that has been compared and is about to be replaced, unless another guards
it. -/
def Nested (x : Move Clipboard ClipboardEvent Empty) : Prop :=
  match x.event with
  | .start _ => ∀ g ∈ x.before.restoring, x.before.text = some g.password →
      x.before.Guarded g.password
  | .expire guard => ∀ g ∈ x.before.restorers guard, g.previous = some guard.password →
      ∃ f ∈ x.before.starting ++ x.before.waiting.erase guard, f.password = guard.password
  | .install _ => True
  | .restore _ => True

instance (s : Clipboard) (password : Str) : Decidable (s.Guarded password) :=
  inferInstanceAs (Decidable (∃ g ∈ s.starting ++ s.waiting, g.password = password))

instance (x : Move Clipboard ClipboardEvent Empty) : Decidable (Nested x) :=
  match x with
  | ⟨s, .start _, _, _⟩ => inferInstanceAs (Decidable (∀ g ∈ s.restoring,
      s.text = some g.password → s.Guarded g.password))
  | ⟨s, .expire guard, _, _⟩ => inferInstanceAs (Decidable (∀ g ∈ s.restorers guard,
      g.previous = some guard.password →
        ∃ f ∈ s.starting ++ s.waiting.erase guard, f.password = guard.password))
  | ⟨_, .install _, _, _⟩ => inferInstanceAs (Decidable True)
  | ⟨_, .restore _, _, _⟩ => inferInstanceAs (Decidable True)

/-- **Passwords on the clipboard, or saved, are guarded**; on the clipboard there may also be one
that is about to be replaced. `P` has all the passwords. -/
structure Inv (P : Str → Prop) (s : Clipboard) : Prop where
  text : ∀ pw, P pw → s.text = some pw → s.Guarded pw ∨ ∃ g ∈ s.restoring, g.password = pw
  saved : ∀ g ∈ s.starting ++ s.waiting ++ s.restoring, ∀ pw, P pw → g.previous = some pw →
    s.Guarded pw

variable {P : Str → Prop} {s t : Clipboard} {guard : RestoreGuard} {password : Str}

theorem inv_fresh {text : Option Str} (h : ∀ pw, P pw → text ≠ some pw) : Inv P (fresh text) where
  text pw hpw htext := absurd htext (h pw hpw)
  saved _ hg := absurd hg List.not_mem_nil

theorem inv_start (h : s.start password = some t) (hs : Inv P s)
    (hnested : ∀ g ∈ s.restoring, s.text = some g.password → s.Guarded g.password) : Inv P t := by
  unfold start at h
  split_ifs at h
  obtain rfl := Option.some.inj h
  have hmono : ∀ pw, s.Guarded pw →
      Guarded { s with starting := s.starting ++ [⟨password, s.text⟩] } pw := by
    rintro pw ⟨g, hg, hpw⟩
    refine ⟨g, ?_, hpw⟩
    simp only [List.mem_append] at hg ⊢
    tauto
  have hclip : ∀ pw, P pw → s.text = some pw → s.Guarded pw := by
    intro pw hpw htext
    rcases hs.text pw hpw htext with hguarded | ⟨g, hg, rfl⟩
    · exact hguarded
    · exact hnested g hg htext
  refine ⟨fun pw hpw htext => .inl (hmono pw (hclip pw hpw htext)), fun g hg pw hpw hprev => ?_⟩
  have hcases : g ∈ s.starting ++ s.waiting ++ s.restoring ∨ g = ⟨password, s.text⟩ := by
    simp only [List.mem_append, List.mem_singleton] at hg ⊢
    tauto
  rcases hcases with hold | rfl
  · exact hmono pw (hs.saved g hold pw hpw hprev)
  · exact hmono pw (hclip pw hpw hprev)

theorem inv_install (h : s.install guard = some t) (hs : Inv P s) : Inv P t := by
  unfold install at h
  split_ifs at h with hmem
  obtain rfl := Option.some.inj h
  -- the daemon moves from one list to the other
  have hmoved : ∀ g, g ∈ s.starting.erase guard ++ (s.waiting ++ [guard]) ↔
      g ∈ s.starting ++ s.waiting := by
    intro g
    have hperm : (s.starting.erase guard ++ (s.waiting ++ [guard])).Perm
        (s.starting ++ s.waiting) := by
      calc (s.starting.erase guard ++ (s.waiting ++ [guard])).Perm
            (s.starting.erase guard ++ (guard :: s.waiting)) :=
          (List.perm_append_singleton guard s.waiting).append_left _
        _ |>.Perm (guard :: (s.starting.erase guard ++ s.waiting)) := List.perm_middle
        _ |>.Perm (s.starting ++ s.waiting) :=
          (List.perm_cons_erase hmem).symm.append_right s.waiting
    exact hperm.mem_iff
  have hguarded : ∀ pw, s.Guarded pw →
      ∃ g ∈ s.starting.erase guard ++ (s.waiting ++ [guard]), g.password = pw :=
    fun pw ⟨g, hg, hpw⟩ => ⟨g, (hmoved g).2 hg, hpw⟩
  refine ⟨fun pw hpw htext => .inl ⟨guard, ?_, Option.some.inj htext⟩,
    fun g hg pw hpw hprev => hguarded pw (hs.saved g ?_ pw hpw hprev)⟩
  · simp
  · rcases List.mem_append.1 hg with hg | hg
    · exact List.mem_append_left _ ((hmoved g).1 hg)
    · exact List.mem_append_right _ hg

theorem inv_expire (h : s.expire guard = some t) (hs : Inv P s)
    (hnested : ∀ g ∈ s.restorers guard, g.previous = some guard.password →
      ∃ f ∈ s.starting ++ s.waiting.erase guard, f.password = guard.password) : Inv P t := by
  -- a password other than that of the daemon is still guarded
  have hother : ∀ pw, s.Guarded pw → pw ≠ guard.password →
      ∃ g ∈ s.starting ++ s.waiting.erase guard, g.password = pw := by
    rintro pw ⟨g, hg, rfl⟩ hne
    refine ⟨g, ?_, rfl⟩
    have hgne : g ≠ guard := fun he => hne (he ▸ rfl)
    rcases List.mem_append.1 hg with hg | hg
    · exact List.mem_append_left _ hg
    · exact List.mem_append_right _ ((List.mem_erase_of_ne hgne).2 hg)
  have hsaved : ∀ g ∈ s.starting ++ s.waiting ++ s.restoring, g ∈ s.restorers guard →
      ∀ pw, P pw → g.previous = some pw →
        ∃ f ∈ s.starting ++ s.waiting.erase guard, f.password = pw := by
    intro g hg hstill pw hpw hprev
    by_cases he : pw = guard.password
    · subst he
      exact hnested g hstill hprev
    · exact hother pw (hs.saved g hg pw hpw hprev) he
  have hsub : ∀ g ∈ s.waiting.erase guard, g ∈ s.waiting := fun g hg => List.mem_of_mem_erase hg
  unfold expire at h
  split_ifs at h with hmem htext
  · obtain rfl := Option.some.inj h
    refine ⟨fun pw hpw hpwtext => .inr ⟨guard, ?_, ?_⟩, fun g hg => hsaved g ?_ ?_⟩
    · simp
    · exact Option.some.inj (htext.symm.trans hpwtext)
    · simp only [List.mem_append, List.mem_singleton] at hg ⊢
      rcases hg with (hg | hg) | hg | rfl
      · exact .inl (.inl hg)
      · exact .inl (.inr (hsub g hg))
      · exact .inr hg
      · exact .inl (.inr hmem)
    · rw [restorers, if_pos htext]
      simp only [List.mem_append, List.mem_singleton] at hg ⊢
      tauto
  · obtain rfl := Option.some.inj h
    refine ⟨fun pw hpw hpwtext => ?_,
      fun g hg => hsaved g ?_ (List.mem_append_left _ hg)⟩
    · refine (hs.text pw hpw hpwtext).imp_left fun hguarded => hother pw hguarded ?_
      rintro rfl
      exact htext hpwtext
    · simp only [List.mem_append] at hg ⊢
      rcases hg with (hg | hg) | hg
      · exact .inl (.inl hg)
      · exact .inl (.inr (hsub g hg))
      · exact .inr hg

theorem inv_restore (h : s.restore guard = some t) (hs : Inv P s) : Inv P t := by
  unfold restore at h
  split_ifs at h with hmem
  obtain rfl := Option.some.inj h
  refine ⟨fun pw hpw htext => .inl ?_, fun g hg => hs.saved g ?_⟩
  · exact hs.saved guard (List.mem_append_right _ hmem) pw hpw htext
  · rcases List.mem_append.1 hg with hg | hg
    · exact List.mem_append_left _ hg
    · exact List.mem_append_right _ (List.mem_of_mem_erase hg)

/-- **What one call preserves.** -/
theorem daemons_inv {x : Move Clipboard ClipboardEvent Empty} (hx : daemons.Makes x)
    (hnested : Nested x) (hs : Inv P x.before) : Inv P x.after := by
  obtain ⟨s, e, t, outputs⟩ := x
  obtain ⟨u, hcall, hu⟩ := Option.map_eq_some_iff.1 hx
  obtain ⟨rfl, -⟩ := Prod.mk.inj hu
  cases e with
  | start password => exact inv_start hcall hs hnested
  | install guard => exact inv_install hcall hs
  | expire guard => exact inv_expire hcall hs hnested
  | restore guard => exact inv_restore hcall hs

/-! ## Auto-clear -/

/-- The passwords of the daemons of a run. -/
def passwords (run : List (Move Clipboard ClipboardEvent Empty)) : List Str :=
  run.filterMap fun x =>
    match x.event with
    | .start password => some password
    | _ => none

/-- **Auto-clear really clears**, when windows are nested: if the clipboard had none of the
passwords, it has none of them when all windows have closed. -/
theorem auto_clear {text : Option Str} {run : List (Move Clipboard ClipboardEvent Empty)}
    (hrun : daemons.Runs (fresh text) run s) (hnested : ∀ x ∈ run, Nested x)
    (hnone : ∀ pw ∈ passwords run, text ≠ some pw)
    (hstarting : s.starting = []) (hwaiting : s.waiting = []) (hrestoring : s.restoring = []) :
    ∀ pw ∈ passwords run, s.text ≠ some pw := by
  intro pw hpw htext
  have hinv : Inv (· ∈ passwords run) s :=
    hrun.invariant (fun x hx hn hi => daemons_inv hx hn hi) hnested (inv_fresh hnone)
  rcases hinv.text pw hpw htext with ⟨g, hg, -⟩ | ⟨g, hg, -⟩
  · rw [hstarting, hwaiting] at hg
    exact List.not_mem_nil hg
  · rw [hrestoring] at hg
    exact List.not_mem_nil hg

/-- Windows in a window, two of them with one password. -/
def nestedCalls : List ClipboardEvent :=
  let a : RestoreGuard := ⟨['a'], some ['x']⟩
  let b : RestoreGuard := ⟨['b'], some ['a']⟩
  let again : RestoreGuard := ⟨['b'], some ['b']⟩
  [.start ['a'], .install a, .start ['b'], .install b, .start ['b'], .install again,
    .expire b, .restore b, .expire again, .expire a, .restore a]

theorem nestedCalls_run : (daemons.exec (fresh (some ['x'])) nestedCalls).isSome = true := by
  decide

theorem auto_clear_nested :
    ((daemons.exec (fresh (some ['x'])) nestedCalls).get nestedCalls_run).2.text ≠ some ['a'] ∧
      ((daemons.exec (fresh (some ['x'])) nestedCalls).get nestedCalls_run).2.text ≠ some ['b'] := by
  have hclear := auto_clear (Machine.get_runs nestedCalls_run) (by decide) (by decide) rfl rfl rfl
  exact ⟨hclear ['a'] (by decide), hclear ['b'] (by decide)⟩

/-- **Of two windows that overlap, the first password stays**: the second daemon has saved it, and
puts it back when the first is gone. -/
theorem overlap_leaves {a b : Str} (text : Option Str) (ha : a ≠ []) (hb : b ≠ []) (hab : a ≠ b) :
    ∃ run, daemons.Runs (fresh text) run (fresh (some a)) ∧ passwords run = [a, b] := by
  let first : RestoreGuard := ⟨a, text⟩
  let second : RestoreGuard := ⟨b, some a⟩
  have hexec : daemons.exec (fresh text) [.start a, .install first, .start b, .install second,
      .expire first, .expire second, .restore second] = some
        ([⟨fresh text, .start a, ⟨text, [first], [], []⟩, []⟩,
          ⟨⟨text, [first], [], []⟩, .install first, ⟨some a, [], [first], []⟩, []⟩,
          ⟨⟨some a, [], [first], []⟩, .start b, ⟨some a, [second], [first], []⟩, []⟩,
          ⟨⟨some a, [second], [first], []⟩, .install second,
            ⟨some b, [], [first, second], []⟩, []⟩,
          ⟨⟨some b, [], [first, second], []⟩, .expire first, ⟨some b, [], [second], []⟩, []⟩,
          ⟨⟨some b, [], [second], []⟩, .expire second, ⟨some b, [], [], [second]⟩, []⟩,
          ⟨⟨some b, [], [], [second]⟩, .restore second, fresh (some a), []⟩], fresh (some a)) := by
    have hba : ¬ b = a := fun h => hab h.symm
    simp [Machine.exec, daemons, start, install, expire, restore, fresh, first, second, ha, hb, hba]
  exact ⟨_, Machine.exec_runs hexec, rfl⟩

theorem overlap_leaves_first :
    ∃ run, daemons.Runs (fresh none) run (fresh (some ['a'])) ∧ passwords run = [['a'], ['b']] :=
  overlap_leaves none (by decide) (by decide) (by decide)

end Clipboard

end Bypass
