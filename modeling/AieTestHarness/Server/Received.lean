import AieTestHarness.Sockets

/-!
# The xclbin of a client

`test_harness_mgr_server::init` receives the client's xclbin into a directory of its own, and the
destructor deletes what it has received.
-/

namespace AieTestHarness

open Chunks Sockets

def xclbins : Name := [120, 99, 108, 98, 105, 110, 115]

end AieTestHarness
