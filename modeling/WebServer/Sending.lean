import Mathlib.Tactic.Tauto
import WebServer.RequestHandle

namespace WebServer.Sending

open Message Process Segel

theorem rioWriten_all (writes : List WriteAnswer) (bs : Bytes)
    (h : (rioWriten writes bs).2.1 = true) : (rioWriten writes bs).1 = bs := by
  induction writes generalizing bs with
  | nil => cases bs <;> rfl
  | cons a writes ih =>
      cases bs with
      | nil => rfl
      | cons b bs =>
          cases a with
          | eintr => exact ih _ h
          | failed => simp [rioWriten] at h
          | short k =>
              have hd := ih _ h
              simp only [rioWriten]
              rw [hd, List.take_append_drop]

theorem rioWriten_ok {writes : List WriteAnswer} (bs : Bytes) (h : .failed ∉ writes) :
    (rioWriten writes bs).2.1 = true := by
  induction writes generalizing bs with
  | nil => cases bs <;> rfl
  | cons a writes ih =>
      have hw : WriteAnswer.failed ∉ writes := fun ha => h (List.mem_cons_of_mem _ ha)
      cases bs with
      | nil => rfl
      | cons b bs =>
          cases a with
          | eintr => exact ih _ hw
          | failed => simp at h
          | short k => exact ih _ hw

theorem rioWriten_rest (writes : List WriteAnswer) (bs : Bytes) :
    (rioWriten writes bs).2.2 <:+ writes := by
  induction writes generalizing bs with
  | nil => cases bs <;> exact List.suffix_rfl
  | cons a writes ih =>
      cases bs with
      | nil => exact List.suffix_rfl
      | cons b bs =>
          cases a with
          | eintr => exact (ih _).trans (List.suffix_cons _ _)
          | failed => exact List.suffix_cons _ _
          | short k => exact (ih _).trans (List.suffix_cons _ _)

structure Sends (bytes : Bytes) (w w' : World) : Prop where
  os : w'.os = w.os
  sent : w'.sent = w.sent ++ bytes
  logged : w'.logged = w.logged
  writes : w'.writes <:+ w.writes

theorem Sends.trans {a b : Bytes} {w₁ w₂ w₃ : World} (h₁ : Sends a w₁ w₂) (h₂ : Sends b w₂ w₃) :
    Sends (a ++ b) w₁ w₃ where
  os := h₂.os.trans h₁.os
  sent := by rw [h₂.sent, h₁.sent, List.append_assoc]
  logged := h₂.logged.trans h₁.logged
  writes := h₂.writes.trans h₁.writes

/-- The process has exited with nothing logged; where `ok` holds this is due to a
failed write. -/
def Dropped (ok : Prop) (w w' : World) : Prop := w'.logged = w.logged ∧ (ok → .failed ∈ w.writes)

variable {bs : Bytes} {w w' w₁ : World} {ok : Prop}

theorem Sends.dropped (h : Sends bs w w₁) (hd : Dropped ok w₁ w') : Dropped ok w w' :=
  ⟨hd.1.trans h.logged, fun hok => h.writes.subset (hd.2 hok)⟩

theorem sends_nil (stdout query : Bytes) : Sends [] w { w with stdout := stdout, query := query } :=
  ⟨rfl, (List.append_nil _).symm, rfl, List.suffix_rfl⟩

theorem RioWriten_ensures (usrbuf : Bytes) (n : Nat) (hn : ok → n ≤ usrbuf.length) :
    (RioWriten usrbuf n).Ensures w (fun _ w' => n ≤ usrbuf.length ∧ w'.stdout = w.stdout ∧
      Sends (usrbuf.take n) w w') (Dropped ok w) := by
  unfold RioWriten Proc.Ensures
  dsimp only
  by_cases hle : n ≤ usrbuf.length
  · rw [if_pos hle, List.append_nil]
    by_cases h : (rioWriten w.writes (usrbuf.take n)).2.1 = true ∧ n ≤ usrbuf.length
    · rw [if_pos h]
      refine ⟨hle, rfl, rfl, ?_, rfl, rioWriten_rest _ _⟩
      rw [rioWriten_all _ _ h.1]
    · rw [if_neg h]
      refine ⟨rfl, fun _ => ?_⟩
      by_contra hf
      exact h ⟨rioWriten_ok _ hf, hle⟩
  · rw [if_neg fun h => hle h.2]
    exact ⟨rfl, fun hok => absurd (hn hok) hle⟩

theorem send_ensures (buf : Bytes) : (RioWriten buf buf.length).Ensures w
    (fun _ w' => w'.stdout = w.stdout ∧ Sends buf w w') (Dropped ok w) :=
  (RioWriten_ensures buf buf.length fun _ => Nat.le_refl _).mono
    (fun _ _ h => ⟨h.2.1, by simpa using h.2.2⟩) fun _ h => h

theorem printf_ensures (buf : Bytes) {E : World → Prop} :
    (printf buf).Ensures w (fun _ w' => Sends [] w w') E :=
  sends_nil _ _

theorem check_ensures {call : Os → Bool} (hcall : ok → call w.os = true) :
    (check call).Ensures w (fun _ w' => w = w') (Dropped ok w) := by
  unfold check Proc.Ensures
  beta_reduce
  by_cases h : call w.os = true
  · rw [if_pos h]
  · rw [if_neg h]
    exact ⟨rfl, fun hok => absurd (hcall hok) h⟩

variable {sent : Bytes} {β : Type} {f : Unit → Sys β} {P : β → World → Prop}

theorem Sends.send_bind (h : Sends sent w w₁) (buf : Bytes)
    (hf : ∀ w', Sends (sent ++ buf) w w' → (f ()).Ensures w' P (Dropped ok w)) :
    (RioWriten buf buf.length >>= f).Ensures w₁ P (Dropped ok w) :=
  (send_ensures buf).bind (fun _ w' hw => hf w' (h.trans hw.2)) fun _ hd => h.dropped hd

theorem Sends.printf_bind (h : Sends sent w w₁) (buf : Bytes)
    (hf : ∀ w', Sends sent w w' → (f ()).Ensures w' P (Dropped ok w)) :
    (printf buf >>= f).Ensures w₁ P (Dropped ok w) :=
  (printf_ensures buf).bind (fun _ w' hw => hf w' (by simpa using h.trans hw)) fun _ hd => hd

end WebServer.Sending
