/-
  What a socket receives is answered once, whole and in order.
-/
import Aegir.Net.Account

namespace Aegir.Net

open Socket

variable {kind : Kind} {s s' : Socket} {a : Act} {d : Datagram} {call : Call} {method : Method} {got : List Datagram}
  {payloads : List (List ℕ)} {pieces : List Datagram}

/-! ## What the other party leaves -/

/-- The serve loop's side is as it was. -/
structure Beside (s s' : Socket) : Prop where
  kind : s'.kind = s.kind
  server : s'.server = s.server
  outstanding : s'.outstanding = s.outstanding
  heldKind : s'.heldKind = s.heldKind
  heldWindow : s'.heldWindow = s.heldWindow
  heldCapacity : s'.heldCapacity = s.heldCapacity

theorem Windowed.beside (hwindowed : Windowed s call) (hbeside : Beside s s') : Windowed s' call := by
  simpa only [Windowed, hbeside.heldWindow, hbeside.heldCapacity] using hwindowed

theorem Storing.beside {todo : List Store} (hstoring : Storing s call todo) (hbeside : Beside s s') : Storing s' call todo := by
  cases hstoring with
  | capacity hmethod hwindow => exact .capacity hmethod (hbeside.heldWindow ▸ hwindow)
  | window hmethod hwindow hcapacity =>
    exact .window hmethod (hbeside.heldWindow ▸ hwindow) (hbeside.heldCapacity ▸ hcapacity)
  | kind hwindowed => exact .kind (hwindowed.beside hbeside)
  | held hwindowed hkind => exact .held (hwindowed.beside hbeside) (hbeside.heldKind ▸ hkind)

theorem Free.beside (hfree : Free s) (hbeside : Beside s s') : Free s' := by
  unfold Free at hfree ⊢
  rw [hbeside.server, hbeside.outstanding, hbeside.heldWindow, hbeside.kind]
  split at hfree
  · exact hfree
  · exact hfree
  · exact hfree
  · exact hfree
  · exact hfree
  · exact ⟨hfree.1, hfree.2.beside hbeside⟩
  · exact hfree

theorem Stage.free_of_server (hstage : Stage s) (hserver : ∀ call, ¬ s.server.Gave call) :
    s.held = none ∧ (∀ d call, s.stack ≠ .window d call) ∧ (∀ d call window, s.stack ≠ .send d call window) ∧ Free s := by
  cases hstage with
  | free hheld hstack hsend hfree => exact ⟨hheld, hstack, hsend, hfree⟩
  | held call _ _ hgave | window _ call _ _ hgave | send _ call _ _ _ hgave => exact absurd hgave (hserver call)

theorem Stage.turn (hstage : Stage s) (server : Server) (hfree : Free s → Free { s with server := server })
    (hgave : ∀ call, s.server.Gave call → server.Gave call) : Stage { s with server := server } := by
  cases hstage with
  | free hheld hstack hsend hside => exact .free hheld hstack hsend (hfree hside)
  | held call hheld houtstanding hserver hqueue hkind hwindowed hstack =>
    exact .held call hheld houtstanding (hgave call hserver) hqueue hkind hwindowed hstack
  | window d call hheld houtstanding hserver hqueue hwindowed hstack =>
    exact .window d call hheld houtstanding (hgave call hserver) hqueue hwindowed hstack
  | send d call window hheld houtstanding hserver hqueue hwindow hsends hstack =>
    exact .send d call window hheld houtstanding (hgave call hserver) hqueue hwindow hsends hstack

/-! ## The tcpip thread -/

theorem Stage.idle (hheld : s.held = none) (hidle : s.stack = .idle) (hfree : Free s) : Stage s :=
  .free hheld (by simp [hidle]) (by simp [hidle]) hfree

theorem arrive_inv (hinv : Inv s payloads pieces) (hidle : s.stack = .idle) (d : Datagram) :
    Inv { s with stack := .check d, arrived := s.arrived ++ [d] } payloads pieces := by
  obtain ⟨⟨hread, hcarries, hwhole⟩, hstage⟩ := hinv
  refine ⟨⟨hread, hcarries, ?_⟩, ?_⟩
  · simp only [underWay, hidle, List.append_nil] at hwhole
    simp only [underWay, ← hwhole, List.append_assoc]
    rfl
  · cases hstage with
    | free hheld _ _ hfree =>
      exact .free hheld (fun _ _ h => by cases h) (fun _ _ _ h => by cases h) (hfree.beside ⟨rfl, rfl, rfl, rfl, rfl, rfl⟩)
    | held call hheld houtstanding hserver hqueue hkind hwindowed _ =>
      exact .held call hheld houtstanding hserver hqueue hkind hwindowed (.inr (.inl ⟨d, rfl⟩))
    | window d' call _ _ _ _ _ hstack | send d' call window _ _ _ _ _ _ hstack =>
      rw [hidle] at hstack
      cases hstack

theorem check_inv (hinv : Inv s payloads pieces) (hcheck : s.stack = .check d) :
    Inv { s with stack := if s.heldKind = .recv then .take d else .push d } payloads pieces := by
  obtain ⟨haccount, hstage⟩ := hinv
  refine ⟨haccount.move rfl rfl rfl ?_, ?_⟩
  · by_cases hkind : s.heldKind = .recv <;> simp [inHand, underWay, hcheck, hkind]
  · cases hstage with
    | free hheld _ _ hfree =>
      refine .free hheld ?_ ?_ (hfree.beside ⟨rfl, rfl, rfl, rfl, rfl, rfl⟩)
      · intro d' call h
        simp only at h
        split at h <;> cases h
      · intro d' call window h
        simp only at h
        split at h <;> cases h
    | held call hheld houtstanding hserver hqueue hkind hwindowed _ =>
      exact .held call hheld houtstanding hserver hqueue hkind hwindowed (.inr (.inr ⟨d, if_pos hkind⟩))
    | window d' call _ _ _ _ _ hstack | send d' call window _ _ _ _ _ _ hstack =>
      rw [hcheck] at hstack
      cases hstack

theorem take_inv (hinv : Inv s payloads pieces) (htake : s.stack = .take d) (hstep : s.stackStep = some s') :
    Inv s' payloads pieces := by
  obtain ⟨haccount, hstage⟩ := hinv
  cases hstage with
  | free hheld _ _ hfree =>
    simp only [stackStep, htake, hheld, Option.some.injEq] at hstep
    subst hstep
    refine ⟨haccount.move rfl rfl rfl ?_, ?_⟩
    · simp [inHand, underWay, htake]
    · exact .free rfl (fun _ _ h => by cases h) (fun _ _ _ h => by cases h) (hfree.beside ⟨rfl, rfl, rfl, rfl, rfl, rfl⟩)
  | held call hheld houtstanding hserver hqueue hkind hwindowed _ =>
    simp only [stackStep, htake, hheld, Option.some.injEq] at hstep
    subst hstep
    refine ⟨haccount.move rfl rfl rfl ?_, ?_⟩
    · simp [inHand, underWay, htake]
    · exact .window d call rfl houtstanding hserver hqueue hwindowed rfl
  | window d' call _ _ _ _ _ hstack | send d' call window _ _ _ _ _ _ hstack =>
    rw [htake] at hstack
    cases hstack

theorem window_inv (hinv : Inv s payloads pieces) (hwindow : s.stack = .window d call) :
    Inv { s with heldWindow := none, stack := .send d call s.heldWindow } payloads pieces := by
  obtain ⟨haccount, hstage⟩ := hinv
  refine ⟨haccount.move rfl rfl rfl ?_, ?_⟩
  · simp [inHand, underWay, hwindow]
  · cases hstage with
    | free _ hstack => exact absurd hwindow (hstack d call)
    | held call' _ _ _ _ _ _ hstack => simp [hwindow] at hstack
    | window d' call' hheld houtstanding hserver hqueue hwindowed hstack =>
      obtain ⟨rfl, rfl⟩ := Stack.window.inj (hstack.symm.trans hwindow)
      refine .send d' call' s.heldWindow hheld houtstanding hserver hqueue rfl ?_ rfl
      unfold Windowed at hwindowed
      unfold Sends
      split <;> simp_all
    | send d' call' window _ _ _ _ _ _ hstack =>
      rw [hwindow] at hstack
      cases hstack

/-- What `deliver` sends with a reply. -/
def Socket.sent (s : Socket) (d : Datagram) : Option Call → Message
  | some _ => .window (d.payload.take s.heldCapacity)
  | none => envelope (s.kind = .udp) d

theorem stackStep_send {window : Option Call} (hsend : s.stack = .send d call window) :
    s.stackStep = some { s.answer call (s.sent d window) with stack := .idle } := by
  cases window <;> simp [stackStep, hsend, sent]

theorem sent_payload {window : Option Call} (hsend : s.stack = .send d call window) (hsends : Sends s call window)
    (hsteady : Steady s .stack) : Answer.payload ⟨call, s.sent d window⟩ = some d.payload := by
  simp only [Steady, hsend] at hsteady
  unfold Sends at hsends
  obtain ⟨serial, method⟩ := call
  cases method with
  | recvWindow capacity pos le =>
    obtain ⟨rfl, -⟩ := hsends
    have hfits : d.payload.length ≤ s.heldCapacity := hsteady
    simp [Answer.payload, sent, List.take_of_length_le hfits]
  | recv =>
    subst hsends
    have hkind : s.kind ≠ .udp := by simpa using hsteady
    simp [Answer.payload, sent, envelope, hkind, Datagram.length]
  | recvFrom =>
    subst hsends
    have hkind : s.kind = .udp := by simpa using hsteady
    simp [Answer.payload, sent, envelope, hkind, Datagram.length]

theorem Server.Gave.inHand (hgave : s.server.Gave call) : s.inHand = [] := by
  obtain h | h | h := hgave <;> simp [Socket.inHand, h]

theorem send_inv {window : Option Call} (hinv : Inv s payloads pieces) (hsend : s.stack = .send d call window)
    (hsteady : Steady s .stack) :
    Inv { s.answer call (s.sent d window) with stack := .idle } (payloads ++ [d.payload]) (pieces ++ [d]) := by
  obtain ⟨haccount, hstage⟩ := hinv
  cases hstage with
  | free _ _ hstack => exact absurd hsend (hstack d call window)
  | held call' _ _ _ _ _ _ hstack => simp [hsend] at hstack
  | window d' call' _ _ _ _ _ hstack =>
    rw [hsend] at hstack
    cases hstack
  | send d' call' window' hheld houtstanding hserver hqueue hwindow hsends hstack =>
    obtain ⟨rfl, rfl, rfl⟩ := Stack.send.inj (hstack.symm.trans hsend)
    have hpayload := sent_payload hsend hsends hsteady
    rw [← bytes_singleton] at hpayload ⊢
    refine ⟨haccount.answered (.inl ⟨d', rfl⟩) hpayload rfl rfl rfl ?_, ?_⟩
    · have hgave : { s.answer call' (s.sent d' window') with stack := .idle }.server.Gave call' := hserver
      rw [hserver.inHand, hgave.inHand]
      simp [underWay, hsend, hqueue, answer]
    · refine .idle hheld rfl ?_
      obtain h | h | h := hserver <;> simp [Free, answer, h, hwindow]

theorem push_inv (hinv : Inv s payloads pieces) (hpush : s.stack = .push d) :
    Inv { s with queue := s.queue ++ [d], stack := .idle } payloads pieces := by
  obtain ⟨haccount, hstage⟩ := hinv
  refine ⟨haccount.move rfl rfl rfl ?_, ?_⟩
  · simp [inHand, underWay, hpush]
  · cases hstage with
    | free hheld _ _ hfree =>
      exact .idle hheld rfl (hfree.beside ⟨rfl, rfl, rfl, rfl, rfl, rfl⟩)
    | held call _ _ _ _ _ _ hstack => simp [hpush] at hstack
    | window d' call _ _ _ _ _ hstack | send d' call window _ _ _ _ _ _ hstack =>
      rw [hpush] at hstack
      cases hstack

theorem stackStep_inv (hinv : Inv s payloads pieces) (hsteady : Steady s .stack) (hstep : s.stackStep = some s') :
    ∃ payloads' pieces', Inv s' payloads' pieces' := by
  cases hstack : s.stack with
  | idle => simp [stackStep, hstack] at hstep
  | check d =>
    obtain rfl : _ = s' := by simpa [stackStep, hstack] using hstep
    exact ⟨payloads, pieces, check_inv hinv hstack⟩
  | take d => exact ⟨payloads, pieces, take_inv hinv hstack hstep⟩
  | window d call =>
    obtain rfl : _ = s' := by simpa [stackStep, hstack] using hstep
    exact ⟨payloads, pieces, window_inv hinv hstack⟩
  | send d call window =>
    obtain rfl : _ = s' := by simpa [stackStep_send hstack] using hstep
    exact ⟨_, _, send_inv hinv hstack hsteady⟩
  | push d =>
    obtain rfl : _ = s' := by simpa [stackStep, hstack] using hstep
    exact ⟨payloads, pieces, push_inv hinv hstack⟩

/-! ## The serve loop -/

theorem call_inv (hinv : Inv s payloads pieces) (hwaiting : s.server = .waiting) (hnone : s.outstanding = none) (method : Method) :
    Inv { s with server := .firstLook ⟨s.calls, method⟩ [], outstanding := some ⟨s.calls, method⟩, calls := s.calls + 1 }
      payloads pieces := by
  obtain ⟨haccount, hstage⟩ := hinv
  refine ⟨haccount.move rfl rfl rfl ?_, ?_⟩
  · simp [inHand, underWay, hwaiting]
  · cases hstage with
    | free hheld hstack hsend hfree =>
      simp only [Free, hwaiting] at hfree
      refine .free hheld hstack hsend ⟨rfl, hfree.2, ?_⟩
      cases method with
      | recv | recvFrom | recvWindow => exact .inl rfl
    | held call _ houtstanding | window d call _ houtstanding | send d call window _ houtstanding =>
      rw [hnone] at houtstanding
      cases houtstanding

theorem pop_some {rest : List Datagram} (hpop : s.pop method got = some (d, rest)) : s.queue = d :: rest := by
  unfold pop at hpop
  split at hpop
  · cases hpop
  · split at hpop <;> · split at hpop <;> simp_all

theorem Together.nonempty (htogether : Together kind got) (hbytes : bytes got ≠ []) : ∀ d ∈ got, d.payload ≠ [] := by
  obtain ⟨d, rfl⟩ | ⟨-, -, h⟩ := htogether
  · simpa using hbytes
  · exact h

theorem Taken.together (htaken : Taken kind method got) (hne : got ≠ []) : Together kind got := by
  cases method with
  | recv | recvFrom =>
    obtain h | ⟨d, h⟩ := htaken
    · exact absurd h hne
    · exact .inl ⟨d, h⟩
  | recvWindow capacity pos le => exact (htaken.resolve_left hne).1

theorem Taken.pop {rest : List Datagram} (htaken : Taken s.kind method got) (hpop : s.pop method got = some (d, rest))
    (htakes : Takes s method got) : Taken s.kind method (got ++ [d]) := by
  have hqueue := pop_some hpop
  cases method with
  | recv | recvFrom =>
    have hempty : got = [] := by
      by_contra hne
      simp [Socket.pop, hqueue, hne] at hpop
    exact .inr ⟨d, by simp [hempty]⟩
  | recvWindow capacity pos le =>
    simp only [Takes, hpop] at htakes
    obtain ⟨hd, hkind⟩ := htakes
    refine .inr ⟨?_, by simp [hd]⟩
    obtain rfl | ⟨htogether, hbytes⟩ := htaken
    · exact .inl ⟨d, rfl⟩
    obtain rfl | hstream := hkind
    · exact .inl ⟨d, rfl⟩
    · refine .inr ⟨hstream, by simp, fun d' hd' => ?_⟩
      obtain hd' | hd' := List.mem_append.1 hd'
      · exact htogether.nonempty hbytes d' hd'
      · obtain rfl := List.mem_singleton.1 hd'
        exact hd

theorem Taken.ready_iff (htaken : Taken kind method got) : ready method got ↔ got ≠ [] := by
  cases method with
  | recv | recvFrom => rfl
  | recvWindow capacity pos le =>
    obtain rfl | ⟨htogether, hbytes⟩ := htaken
    · simp [ready]
    · have hne : got ≠ [] := by
        rintro rfl
        exact hbytes rfl
      exact iff_of_true hbytes hne

theorem message_payload (htaken : Taken kind call.method got) (hne : got ≠ []) :
    Answer.payload ⟨call, message call.method got⟩ = some (bytes got) := by
  obtain ⟨serial, method⟩ := call
  cases method with
  | recv | recvFrom =>
    obtain h | ⟨d, rfl⟩ := htaken
    · exact absurd h hne
    · simp [Answer.payload, message, envelope, Datagram.length]
  | recvWindow capacity pos le => cases got <;> simp [Answer.payload, message]

theorem storing_stores (hwindow : s.heldWindow = none) : Storing s call (stores call.method) := by
  obtain ⟨serial, method⟩ := call
  cases method with
  | recv | recvFrom => exact .kind hwindow
  | recvWindow capacity pos le => exact .capacity rfl hwindow

theorem Free.storing {todo : List Store} (hserver : s.server = .storing call todo) (houtstanding : s.outstanding = some call)
    (hstoring : Storing s call todo) : Free s := by
  have h := hstoring
  cases hstoring <;> · simp only [Free, hserver]; exact ⟨houtstanding, h⟩

theorem firstLook_inv (hinv : Inv s payloads pieces) (hlook : s.server = .firstLook call got) (hsteady : Steady s .serve)
    (hstep : s.serveStep = some s') : Inv s' payloads pieces := by
  obtain ⟨haccount, hstage⟩ := hinv
  obtain ⟨hheld, hstack, hsend, hfree⟩ := hstage.free_of_server (by simp [hlook, Server.Gave])
  simp only [Free, hlook] at hfree
  obtain ⟨houtstanding, hwindow, htaken⟩ := hfree
  cases hpop : s.pop call.method got with
  | some p =>
    obtain ⟨d, rest⟩ := p
    obtain rfl : _ = s' := by simpa [serveStep, hlook, hpop] using hstep
    refine ⟨haccount.move rfl rfl rfl ?_, .free hheld hstack hsend ⟨houtstanding, hwindow, ?_⟩⟩
    · simp [inHand, underWay, hlook, pop_some hpop]
    · simp only [Steady, hlook] at hsteady
      exact htaken.pop hpop hsteady
  | none =>
    by_cases hready : ready call.method got
    · obtain rfl : _ = s' := by simpa [serveStep, hlook, hpop, hready] using hstep
      refine ⟨haccount.move rfl rfl rfl ?_, .free hheld hstack hsend ⟨houtstanding, hwindow, htaken, htaken.ready_iff.1 hready⟩⟩
      simp [inHand, underWay, hlook]
    · obtain rfl : _ = s' := by simpa [serveStep, hlook, hpop, hready] using hstep
      have hempty : got = [] := by
        by_contra hne
        exact hready (htaken.ready_iff.2 hne)
      refine ⟨haccount.move rfl rfl rfl ?_, .free hheld hstack hsend ?_⟩
      · simp [inHand, underWay, hlook, hempty]
      · exact .storing rfl houtstanding (storing_stores hwindow)

theorem answering_inv (hinv : Inv s payloads pieces) (hanswering : s.server = .answering call got) :
    Inv { s.answer call (message call.method got) with server := .waiting } (payloads ++ [bytes got]) (pieces ++ got) := by
  obtain ⟨haccount, hstage⟩ := hinv
  obtain ⟨hheld, hstack, hsend, hfree⟩ := hstage.free_of_server (by simp [hanswering, Server.Gave])
  simp only [Free, hanswering] at hfree
  obtain ⟨-, hwindow, htaken, hne⟩ := hfree
  refine ⟨haccount.answered (htaken.together hne) (message_payload htaken hne) rfl rfl rfl ?_,
    .free hheld hstack hsend ⟨rfl, hwindow⟩⟩
  simp [inHand, underWay, hanswering, answer]

theorem storing_inv {first : Store} {todo : List Store} (hinv : Inv s payloads pieces)
    (hserver : s.server = .storing call (first :: todo)) (hsteady : Steady s .serve) :
    Inv { s.store call first with server := .storing call todo } payloads pieces := by
  obtain ⟨haccount, hstage⟩ := hinv
  obtain ⟨hheld, hstack, hsend, hfree⟩ := hstage.free_of_server (by simp [hserver, Server.Gave])
  simp only [Free, hserver] at hfree
  obtain ⟨houtstanding, hstoring⟩ := hfree
  refine ⟨?_, ?_⟩
  · cases first <;> · exact haccount.move rfl rfl rfl (by simp [inHand, underWay, hserver, store])
  · cases hstoring with
    | capacity hmethod hwindow =>
      exact .free hheld hstack hsend (.storing rfl houtstanding (.window hmethod hwindow (by simp [store, hmethod])))
    | window hmethod hwindow hcapacity =>
      refine .free hheld hstack hsend (.storing rfl houtstanding (.kind ?_))
      simpa [Windowed, hmethod, store] using hcapacity
    | kind hwindowed => exact .free hheld hstack hsend (.storing rfl houtstanding (.held hwindowed rfl))
    | held hwindowed hkind =>
      simp only [Steady, hserver] at hsteady
      obtain ⟨hqueue, hpush⟩ := hsteady
      refine .held call rfl houtstanding (.inr (.inl rfl)) hqueue hkind hwindowed ?_
      show s.stack = .idle ∨ (∃ d, s.stack = .check d) ∨ ∃ d, s.stack = .take d
      cases h : s.stack with
      | idle => exact .inl rfl
      | check d => exact .inr (.inl ⟨d, rfl⟩)
      | take d => exact .inr (.inr ⟨d, rfl⟩)
      | window d call' => exact absurd h (hstack d call')
      | send d call' window => exact absurd h (hsend d call' window)
      | push d => simp [Stack.Pushes, h] at hpush

theorem stored_inv (hinv : Inv s payloads pieces) (hserver : s.server = .storing call []) :
    Inv { s with server := .secondLook call [] } payloads pieces := by
  obtain ⟨haccount, hstage⟩ := hinv
  refine ⟨haccount.move rfl rfl rfl (by simp [inHand, underWay, hserver]), hstage.turn _ ?_ ?_⟩
  · intro hfree
    simpa [Free, hserver] using hfree
  · intro call' hgave
    simp only [hserver, Server.Gave, Server.storing.injEq, reduceCtorEq, and_true, or_false, false_or] at hgave
    exact .inr (.inr (hgave ▸ rfl))

theorem secondLook_inv (hinv : Inv s payloads pieces) (hserver : s.server = .secondLook call got) (hsteady : Steady s .serve)
    (hstep : s.serveStep = some s') : Inv s' payloads pieces := by
  obtain ⟨haccount, hstage⟩ := hinv
  have hempty : got = [] := by
    cases hstage with
    | free _ _ _ hfree =>
      cases got with
      | nil => rfl
      | cons d got => simp [Free, hserver] at hfree
    | held call' _ _ hgave | window _ call' _ _ hgave | send _ call' _ _ _ hgave =>
      simp only [hserver, Server.Gave, Server.secondLook.injEq, reduceCtorEq, false_or] at hgave
      exact hgave.2
  subst hempty
  have hready : ¬ ready call.method [] := by
    obtain ⟨serial, method⟩ := call
    cases method <;> simp [ready]
  simp only [Steady, hserver] at hsteady
  obtain rfl : _ = s' := by simpa [serveStep, hserver, hsteady, hready] using hstep
  refine ⟨haccount.move rfl rfl rfl (by simp [inHand, underWay, hserver]), hstage.turn _ ?_ ?_⟩
  · intro hfree
    simpa [Free, hserver] using hfree
  · intro _ _
    exact .inl rfl

theorem serveStep_inv (hinv : Inv s payloads pieces) (hsteady : Steady s .serve) (hstep : s.serveStep = some s') :
    ∃ payloads' pieces', Inv s' payloads' pieces' := by
  cases hserver : s.server with
  | waiting => simp [serveStep, hserver] at hstep
  | firstLook call got => exact ⟨payloads, pieces, firstLook_inv hinv hserver hsteady hstep⟩
  | answering call got =>
    obtain rfl : _ = s' := by simpa [serveStep, hserver] using hstep
    exact ⟨_, _, answering_inv hinv hserver⟩
  | storing call todo =>
    cases todo with
    | nil =>
      obtain rfl : _ = s' := by simpa [serveStep, hserver] using hstep
      exact ⟨payloads, pieces, stored_inv hinv hserver⟩
    | cons first todo =>
      obtain rfl : _ = s' := by simpa [serveStep, hserver] using hstep
      exact ⟨payloads, pieces, storing_inv hinv hserver hsteady⟩
  | secondLook call got => exact ⟨payloads, pieces, secondLook_inv hinv hserver hsteady hstep⟩
  | takeBack call got | lateReply call got =>
    have hfree := (hinv.stage.free_of_server (by simp [hserver, Server.Gave])).2.2.2
    simp [Free, hserver] at hfree

/-! ## Every run -/

theorem step_inv (hinv : Inv s payloads pieces) (hsteady : Steady s a) (hstep : s.step a = some s') :
    ∃ payloads' pieces', Inv s' payloads' pieces' := by
  cases a with
  | arrive d =>
    simp only [Socket.step] at hstep
    split at hstep
    next hidle =>
      cases hstep
      exact ⟨payloads, pieces, arrive_inv hinv hidle d⟩
    next => cases hstep
  | stack => exact stackStep_inv hinv hsteady hstep
  | call method =>
    simp only [Socket.step] at hstep
    split at hstep
    next h =>
      cases hstep
      exact ⟨payloads, pieces, call_inv hinv h.1 h.2 method⟩
    next => cases hstep
  | serve => exact serveStep_inv hinv hsteady hstep

theorem reaches_inv (hreach : Reaches kind Steady s) : ∃ payloads pieces, Inv s payloads pieces := by
  induction hreach with
  | start => exact ⟨[], [], .start kind⟩
  | step _ hsteady hstep ih =>
    obtain ⟨payloads, pieces, hinv⟩ := ih
    exact step_inv hinv hsteady hstep

theorem reaches_delivered (hreach : Reaches kind Steady s) : Delivered s := by
  obtain ⟨payloads, pieces, hinv⟩ := reaches_inv hreach
  exact hinv.delivered

/-! ## Runs -/

/-- A receive is looked for, held and looked for again, and answered by the piece that arrives then. -/
def heldRun (method : Method) (d : Datagram) : List Act :=
  .call method :: List.replicate ((stores method).length + 3) .serve ++ .arrive d :: List.replicate 4 .stack

def sampleDatagram : Datagram := ⟨0x7f000001, 53, [1, 2], by decide⟩

theorem reaches_delivered_sample : ∃ s, run Steady (heldRun .recvFrom sampleDatagram) (.start .udp) = some s ∧
    s.answers.map Answer.payload = [some [1, 2]] ∧ Delivered s := by
  obtain ⟨s, hrun⟩ := Option.isSome_iff_exists.1
    (show (run Steady (heldRun .recvFrom sampleDatagram) (.start .udp)).isSome = true by decide)
  have hanswers : ∀ s, run Steady (heldRun .recvFrom sampleDatagram) (.start .udp) = some s →
      s.answers.map Answer.payload = [some [1, 2]] := by decide
  exact ⟨s, hrun, hanswers s hrun, reaches_delivered (Reaches.start.run hrun)⟩

/-- A stream's piece is larger than the window held for it: what does not fit is lost. -/
theorem window_cuts : ¬ ∀ (kind : Kind) (s : Socket), Reaches kind (fun _ _ => True) s → Delivered s := by
  intro h
  obtain ⟨s, hrun⟩ := Option.isSome_iff_exists.1 (show (run (fun _ _ => True)
    (heldRun (.recvWindow 1 (by decide) (by decide)) sampleDatagram) (.start .stream)).isSome = true by decide)
  have hends : ∀ s, run (fun _ _ => True) (heldRun (.recvWindow 1 (by decide) (by decide)) sampleDatagram) (.start .stream) = some s →
      s.answers.map Answer.payload = [some [1]] ∧ s.arrived = [sampleDatagram] := by decide
  obtain ⟨hanswers, harrived⟩ := hends s hrun
  obtain ⟨payloads, pieces, hread, hinorder⟩ := (h .stream s (Reaches.start.run hrun)).answered
  have hpayloads : payloads = [[1]] := by
    obtain ⟨first, rfl, hfirst⟩ := List.map_eq_singleton_iff.1 (hread.symm.trans hanswers)
    rw [Option.some.inj hfirst]
  have hbytes : [1] = bytes pieces := by simpa [hpayloads] using hinorder.stream
  have hpieces : pieces = [] ∨ pieces = [sampleDatagram] := by
    have hprefix := harrived ▸ hinorder.arrived
    rcases pieces with _ | ⟨d, pieces⟩
    · exact .inl rfl
    · simpa using hprefix
  obtain rfl | rfl := hpieces
  · simp at hbytes
  · simp [sampleDatagram] at hbytes

end Aegir.Net
