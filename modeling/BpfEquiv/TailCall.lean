import BpfEquiv.Kernel

/-!
Tail calls inside a call.

In the kernel a successful tail call replaces the current frame only: what the target
returns is what the subprogram returns, and its caller goes on. The executor ends the
whole path instead. The two agree on the executions in which no tail call made inside
a subprogram or a callback succeeds.
-/
namespace BpfEquiv
open Smt Hoare Option

end BpfEquiv
